import OsLessons.Lib.Semaphore

/-! # The program `single`

  `single.c`: every process counts itself in `active` under a named semaphore,
  prints `Hello world` or `Goodbye world` character by character, and takes
  itself out again. `SIGINT` sets `stop_flag` at any time after `sigaction`.

  A process is started at any time. Its calls that set things up may fail.
  `sem_wait` fails with `EINTR` only, which `sem_wait_retry` answers by waiting
  again: the process stays where it is. `sem_post` does not fail. `write` may
  succeed, be interrupted, or fail.
-/

namespace Single

open Lts Semaphore

/-! ### Shared and own state -/

/-- The one semaphore, `SEM_NAME`. -/
inductive Sem where
  | g_sem
  deriving DecidableEq

instance : Fintype Sem where
  elems := {.g_sem}
  complete k := by cases k; decide

/-- `struct shared_state`. -/
structure shared_state where
  active : ℤ
  deriving DecidableEq

/-- The two messages. -/
inductive Msg where
  | hello
  | goodbye
  deriving DecidableEq

def Msg.text : Msg → List Char
  | .hello => "Hello world\n".toList
  | .goodbye => "Goodbye world\n".toList

/-- Program points of the print loop. -/
inductive LoopPc where
  /-- `i < len` -/
  | test
  | write
  /-- `stop_flag` after the character -/
  | written
  /-- `sleep(1)`, except after the last character -/
  | pause
  /-- `stop_flag` after the pause -/
  | paused
  /-- `i++` -/
  | advance
  deriving DecidableEq

/-- Program points of `main`. -/
inductive Pc where
  /-- not started yet -/
  | unstarted
  | sigaction
  | sem_open
  | shm_open
  | ftruncate
  | mmap
  | waitEntry
  /-- reads and increments `active`, with the semaphore -/
  | choose
  | postEntry
  /-- the print loop, with its index -/
  | print (pc : LoopPc) (i : UInt64)
  /-- `stop_flag` after the loop -/
  | finish
  | writeNl
  /-- `cleanup:` -/
  | cleanup
  | waitCleanup
  /-- decrements `active`, with the semaphore -/
  | leave
  | postCleanup
  /-- gives the mapping and the descriptors back -/
  | close
  | exited
  deriving DecidableEq

/-- What a process has for itself; `out` is what it has written. -/
structure Proc where
  pc : Pc
  stop_flag : Bool
  g_registered : Bool
  msg : Option Msg
  out : List Char
  deriving DecidableEq

/-- `msg` as characters. -/
def Proc.text (l : Proc) : List Char := (l.msg.map Msg.text).getD []

/-- `strlen(msg)`. -/
def Proc.len (l : Proc) : UInt64 := l.text.length.toUInt64

/-! ### One process -/

/-- How a call returns. -/
inductive Answer where
  | ok
  /-- `errno == EINTR` -/
  | interrupted
  | failed
  deriving DecidableEq

variable {T : Type*}

/-- Go on at another program point. -/
def goOn (l : Proc) (pc : Pc) : Op shared_state Sem T Answer Proc :=
  .act fun sh _ => some (sh, { l with pc })

/-- A call that sets something up: `main` returns if it fails. -/
def setup (l : Proc) (pc : Pc) : Op shared_state Sem T Answer Proc :=
  .act fun sh answer =>
    match answer with
    | .ok => some (sh, { l with pc })
    | .failed => some (sh, { l with pc := .exited })
    | .interrupted => none

/-- The first critical section. -/
def choose (sh : shared_state) (l : Proc) : shared_state × Proc :=
  ({ active := sh.active + 1 },
    { l with
      msg := some (if sh.active = 0 then .hello else .goodbye)
      g_registered := true
      pc := .postEntry })

/-- `write(STDOUT_FILENO, &msg[i], 1)` and what follows from its result. -/
def write (l : Proc) (i : UInt64) : Op shared_state Sem T Answer Proc :=
  .act fun sh answer =>
    match answer with
    | .ok => some (sh, { l with out := l.out ++ l.text[i.toNat]?.toList, pc := .print .written i })
    | .interrupted => some (sh, { l with pc := .print .advance (i - 1) })
    | .failed => some (sh, { l with pc := .finish })

/-- The last newline. Its error is ignored. -/
def writeNl (l : Proc) : Op shared_state Sem T Answer Proc :=
  .act fun sh answer =>
    match answer with
    | .ok => some (sh, { l with out := l.out ++ ['\n'], pc := .cleanup })
    | _ => some (sh, { l with pc := .cleanup })

/-- The critical section of the cleanup. -/
def leave (sh : shared_state) (l : Proc) : shared_state × Proc :=
  (if sh.active > 0 then { active := sh.active - 1 } else sh, { l with pc := .postCleanup })

/-- The print loop. -/
def print (l : Proc) (i : UInt64) : LoopPc → Op shared_state Sem T Answer Proc
  | .test => goOn l (if i < l.len then .print .write i else .finish)
  | .write => write l i
  | .written => goOn l (if l.stop_flag then .finish else .print .pause i)
  | .pause => goOn l (.print .paused i)
  | .paused => goOn l (if l.stop_flag then .finish else .print .advance i)
  | .advance => goOn l (.print .test (i + 1))

def main (l : Proc) : Op shared_state Sem T Answer Proc :=
  match l.pc with
  | .unstarted => goOn l .sigaction
  | .sigaction => setup l .sem_open
  | .sem_open => setup l .shm_open
  | .shm_open => setup l .ftruncate
  | .ftruncate => setup l .mmap
  | .mmap => setup l .waitEntry
  | .waitEntry => .wait .g_sem { l with pc := .choose }
  | .choose => .act fun sh _ => some (choose sh l)
  | .postEntry => .post .g_sem 1 { l with pc := .print .test 0 }
  | .print pc i => print l i pc
  | .finish => goOn l (if l.stop_flag then .writeNl else .cleanup)
  | .writeNl => writeNl l
  | .cleanup => goOn l (if l.g_registered then .waitCleanup else .close)
  | .waitCleanup => .wait .g_sem { l with pc := .leave }
  | .leave => .act fun sh _ => some (leave sh l)
  | .postCleanup => .post .g_sem 1 { l with pc := .close }
  | .close => goOn l .exited
  | .exited => .exit

/-- `sigint_handler`, from `sigaction` to the end of the process. -/
def sigint_handler (l : Proc) : Option Proc :=
  match l.pc with
  | .unstarted | .sigaction | .exited => none
  | _ => some { l with stop_flag := true }

theorem sigint_handler_eq {l l' : Proc} (h : sigint_handler l = some l') :
    l' = { l with stop_flag := true } := by
  unfold sigint_handler at h
  split at h <;> cases h
  rfl

/-! ### Any number of processes -/

def procs (T : Type*) : Program shared_state Sem Answer fun _ : T => Proc where
  op _ := main
  handler _ := sigint_handler

abbrev State (T : Type*) : Type _ := Host shared_state Sem fun _ : T => Proc

/-- `sem_open` and `ftruncate` create the objects: the semaphore is one, the
    counter zero. -/
def init (T : Type*) : State T where
  data := { active := 0 }
  sem _ := 1
  thread _ := { pc := .unstarted, stop_flag := false, g_registered := false, msg := none, out := [] }

/-- The processes `T`, in any order of steps and signals. -/
def single (T : Type*) [DecidableEq T] : System (State T) (Event T Answer) :=
  Semaphore.system (procs T) fun s => s = init T

end Single
