import OsLessons.Lib.Semaphore

/-! # Device assembly

  `lesson9_task3_test.c`: two wrench workers and a screwdriver worker build
  devices of two nuts and a screw, over three SysV semaphores and a shared
  record.

  `semop` is retried after `EINTR`. `printf` and `usleep` take time and nothing
  else. The counters are integers: no counter passes `target + 1`.
-/

namespace Assembly

open Lts Semaphore

/-! ### Semaphores and shared memory -/

inductive Sem where
  | SEM_MUTEX
  | SEM_NUT_SLOTS
  | SEM_SCREW_SLOTS
  deriving DecidableEq

instance : Fintype Sem where
  elems := {.SEM_MUTEX, .SEM_NUT_SLOTS, .SEM_SCREW_SLOTS}
  complete k := by cases k <;> decide

structure Shared where
  nuts : ℤ
  screw : ℤ
  device_id : ℤ
  completed : ℤ
  target : ℤ
  stop : Bool
  deriving DecidableEq

/-! ### Workers -/

inductive Worker where
  | wrench1
  | wrench2
  | screwdriver
  deriving DecidableEq

instance : Fintype Worker where
  elems := {.wrench1, .wrench2, .screwdriver}
  complete w := by cases w <;> decide

def Worker.is_wrench : Worker → Bool
  | .wrench1 | .wrench2 => true
  | .screwdriver => false

def Worker.slot_sem (w : Worker) : Sem :=
  if w.is_wrench then .SEM_NUT_SLOTS else .SEM_SCREW_SLOTS

/-- Program points of `worker_loop`; `dev` is the device number that was read. -/
inductive WorkerPc where
  /-- head of the loop, before the test without the mutex -/
  | top
  | takeSlot
  | lockCheck
  /-- tests `stop` again, with the mutex -/
  | check
  | quitMutex
  | quitSlot
  | unlockCheck (dev : ℤ)
  | working (dev : ℤ)
  | lockInstall (dev : ℤ)
  /-- installs the part, with the mutex -/
  | install (dev : ℤ)
  /-- over the limit -/
  | error
  /-- the device is complete -/
  | openNuts
  | openScrew
  | testTarget
  | unlockInstall
  /-- has left the loop -/
  | gone
  deriving DecidableEq

/-- `sh->nuts++` or `sh->screw++`. -/
def Shared.put (sh : Shared) (w : Worker) : Shared :=
  if w.is_wrench then { sh with nuts := sh.nuts + 1 } else { sh with screw := sh.screw + 1 }

/-- The section from the installation to the first `Vn` after it. -/
def install (w : Worker) (sh : Shared) : Shared × WorkerPc :=
  let sh := sh.put w
  if sh.nuts > 2 ∨ sh.screw > 1 then ({ sh with stop := true }, .error)
  else if sh.nuts = 2 ∧ sh.screw = 1 then
    ({ sh with
        completed := sh.completed + 1
        device_id := sh.device_id + 1
        nuts := 0
        screw := 0 }, .openNuts)
  else (sh, .unlockInstall)

/-- `if (sh->completed >= sh->target) sh->stop = 1`. -/
def testTarget (sh : Shared) : Shared :=
  if sh.completed ≥ sh.target then { sh with stop := true } else sh

def worker_loop (w : Worker) : WorkerPc → Op Shared Sem Worker Unit WorkerPc
  | .top => .act fun sh _ => some (sh, if sh.stop then .gone else .takeSlot)
  | .takeSlot => .wait w.slot_sem .lockCheck
  | .lockCheck => .wait .SEM_MUTEX .check
  | .check => .act fun sh _ => some (sh, if sh.stop then .quitMutex else .unlockCheck sh.device_id)
  | .quitMutex => .post .SEM_MUTEX 1 .quitSlot
  | .quitSlot => .post w.slot_sem 1 .gone
  | .unlockCheck dev => .post .SEM_MUTEX 1 (.working dev)
  | .working dev => .act fun sh _ => some (sh, .lockInstall dev)
  | .lockInstall dev => .wait .SEM_MUTEX (.install dev)
  | .install _ => .act fun sh _ => some (install w sh)
  | .error => .post .SEM_MUTEX 1 .gone
  | .openNuts => .post .SEM_NUT_SLOTS 2 .openScrew
  | .openScrew => .post .SEM_SCREW_SLOTS 1 .testTarget
  | .testTarget => .act fun sh _ => some (testTarget sh, .unlockInstall)
  | .unlockInstall => .post .SEM_MUTEX 1 .top
  | .gone => .exit

def workers : Program Shared Sem Unit fun _ : Worker => WorkerPc where
  op := worker_loop

/-! ### The program -/

abbrev State : Type := Host Shared Sem fun _ : Worker => WorkerPc

/-- What `semctl` with `SETALL` sets. -/
def init_vals : Sem → ℕ
  | .SEM_MUTEX => 1
  | .SEM_NUT_SLOTS => 2
  | .SEM_SCREW_SLOTS => 1

def init (target : ℤ) : State where
  data := { nuts := 0, screw := 0, device_id := 1, completed := 0, target := target, stop := false }
  sem := init_vals
  thread _ := .top

/-- The three workers in any order. -/
def assembly (target : ℤ) : System State (Event Worker Unit) :=
  Semaphore.system workers fun s => s = init target

end Assembly
