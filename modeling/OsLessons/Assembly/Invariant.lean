import OsLessons.Assembly.Model
import OsLessons.Lib.Census

/-! # Device assembly: slots, parts and the end

  A slot is free, or in the hands of a worker, or a part, or about to be opened
  for the next device. When a device is complete every slot has become a part,
  so nobody holds one, and whoever takes one before `stop` is set sees `stop`
  behind the mutex.
-/

namespace Assembly

open Lts Semaphore Census

/-! ### Places -/

namespace WorkerPc

/-- Between `P(SEM_MUTEX)` and `Vn(SEM_MUTEX, 1)`. -/
def inside : WorkerPc → ℤ
  | .check | .quitMutex | .unlockCheck _ | .install _ | .error | .openNuts | .openScrew
  | .testTarget | .unlockInstall => 1
  | _ => 0

/-- Has taken a slot, and has not installed its part or given the slot back. -/
def holds : WorkerPc → ℤ
  | .lockCheck | .check | .quitMutex | .quitSlot | .unlockCheck _ | .working _ | .lockInstall _
  | .install _ => 1
  | _ => 0

/-- The slots it is about to open. -/
def nutsOwed : WorkerPc → ℤ
  | .openNuts => 2
  | _ => 0

def screwsOwed : WorkerPc → ℤ
  | .openNuts | .openScrew => 1
  | _ => 0

/-- The device it has read, until its part is installed. -/
def dev : WorkerPc → Option ℤ
  | .unlockCheck dev | .working dev | .lockInstall dev | .install dev => some dev
  | _ => none

/-- Changes the device. -/
def Closing : WorkerPc → Prop
  | .openNuts | .openScrew | .testTarget => True
  | _ => False

/-- Is on the way out, or out. -/
def Quitting : WorkerPc → Prop
  | .quitMutex | .quitSlot | .gone => True
  | _ => False

end WorkerPc

def pcOf (s : State) (w : Worker) : WorkerPc := s.thread w

/-! ### Slots -/

/-- The slots of one kind that a worker holds or is about to open. -/
def nutWeight (w : Worker) (pc : WorkerPc) : ℤ :=
  (if w.is_wrench then pc.holds else 0) + pc.nutsOwed

def screwWeight (w : Worker) (pc : WorkerPc) : ℤ :=
  (if w.is_wrench then 0 else pc.holds) + pc.screwsOwed

theorem worker_delta (w : Worker) (pc : WorkerPc) (sh : Shared) :
    (worker_loop w pc).Delta (unit .SEM_MUTEX) (fun _ => 0) WorkerPc.inside pc sh (· = 0) ∧
    (worker_loop w pc).Delta (unit .SEM_NUT_SLOTS) Shared.nuts (nutWeight w) pc sh (· = 0) ∧
    (worker_loop w pc).Delta (unit .SEM_SCREW_SLOTS) Shared.screw (screwWeight w) pc sh
      (· = 0) := by
  cases pc with
  | install dev =>
    refine ⟨?_, ?_, ?_⟩ <;>
    · intro a sh' pc' hf
      have heq : install w sh = (sh', pc') := Option.some.inj hf
      unfold install Shared.put at heq
      cases w <;> simp only [Worker.is_wrench, ↓reduceIte, Bool.false_eq_true] at heq <;>
      · split_ifs at heq with hlimit hdone <;>
        · obtain ⟨rfl, rfl⟩ := Prod.mk.inj heq
          simp [nutWeight, screwWeight, WorkerPc.inside, WorkerPc.holds, WorkerPc.nutsOwed,
            WorkerPc.screwsOwed, Worker.is_wrench] <;> omega
  | testTarget =>
    refine ⟨?_, ?_, ?_⟩ <;>
    · intro a sh' pc' hf
      obtain ⟨rfl, rfl⟩ := Prod.mk.inj (Option.some.inj hf)
      unfold testTarget
      split <;> simp [nutWeight, screwWeight, WorkerPc.inside, WorkerPc.holds, WorkerPc.nutsOwed,
        WorkerPc.screwsOwed]
  | top | check =>
    refine ⟨?_, ?_, ?_⟩ <;>
    · intro a sh' pc' hf
      obtain ⟨rfl, rfl⟩ := Prod.mk.inj (Option.some.inj hf)
      split <;> simp [nutWeight, screwWeight, WorkerPc.inside, WorkerPc.holds, WorkerPc.nutsOwed,
        WorkerPc.screwsOwed]
  | _ =>
    cases w <;> simp [worker_loop, Op.Delta, nutWeight, screwWeight, WorkerPc.inside,
      WorkerPc.holds, WorkerPc.nutsOwed, WorkerPc.screwsOwed, Worker.is_wrench, Worker.slot_sem,
      unit]

/-- `SEM_MUTEX` and who is inside, the nut slots and the screw slots. -/
structure Books (s : State) : Prop where
  mutex : (s.sem .SEM_MUTEX : ℤ) + ∑ w, (pcOf s w).inside = 1
  nuts : (s.sem .SEM_NUT_SLOTS : ℤ) + s.data.nuts + ∑ w, nutWeight w (pcOf s w) = 2
  screws : (s.sem .SEM_SCREW_SLOTS : ℤ) + s.data.screw + ∑ w, screwWeight w (pcOf s w) = 1

theorem law {target : ℤ} {k : Sem} {f : Shared → ℤ} {w : Worker → WorkerPc → ℤ}
    (hop : ∀ u pc sh, (worker_loop u pc).Delta (unit k) f (w u) pc sh (· = 0)) {s : State}
    (h : (assembly target).Reachable s) :
    s.sem k + f s.data + ∑ u, w u (pcOf s u) =
      (init target).sem k + f (init target).data + ∑ u, w u .top := by
  obtain ⟨s₀, rfl, hvalue⟩ := conserved (I := fun _ _ => True) (fun _ _ _ => trivial)
    (fun u pc sh _ => hop u pc sh) (fun _ _ _ _ hl => by cases hl) h
  rw [value_unit, value_unit] at hvalue
  exact hvalue

theorem books {target : ℤ} {s : State} (h : (assembly target).Reachable s) : Books s where
  mutex := by
    have hlaw := law (fun u pc sh => (worker_delta u pc sh).1) h
    simpa [init, init_vals, WorkerPc.inside] using hlaw
  nuts := by
    have hlaw := law (fun u pc sh => (worker_delta u pc sh).2.1) h
    simpa [init, init_vals, nutWeight, WorkerPc.holds, WorkerPc.nutsOwed] using hlaw
  screws := by
    have hlaw := law (fun u pc sh => (worker_delta u pc sh).2.2) h
    simpa [init, init_vals, screwWeight, WorkerPc.holds, WorkerPc.screwsOwed] using hlaw

theorem WorkerPc.inside_nonneg (pc : WorkerPc) : 0 ≤ pc.inside := by
  cases pc <;> simp [inside]

theorem WorkerPc.holds_nonneg (pc : WorkerPc) : 0 ≤ pc.holds := by
  cases pc <;> simp [holds]

theorem WorkerPc.owed_nonneg (pc : WorkerPc) : 0 ≤ pc.nutsOwed ∧ 0 ≤ pc.screwsOwed := by
  cases pc <;> simp [nutsOwed, screwsOwed]

theorem WorkerPc.owed_eq_zero {pc : WorkerPc} (h : pc.inside = 0) :
    pc.nutsOwed = 0 ∧ pc.screwsOwed = 0 := by
  cases pc <;> first | exact ⟨rfl, rfl⟩ | cases h

theorem nutWeight_nonneg (w : Worker) (pc : WorkerPc) : 0 ≤ nutWeight w pc := by
  have hholds := pc.holds_nonneg
  have howed := pc.owed_nonneg
  unfold nutWeight
  split <;> omega

theorem screwWeight_nonneg (w : Worker) (pc : WorkerPc) : 0 ≤ screwWeight w pc := by
  have hholds := pc.holds_nonneg
  have howed := pc.owed_nonneg
  unfold screwWeight
  split <;> omega

/-- With nothing left of either kind of slot, nobody holds one. -/
theorem holds_eq_zero {w : Worker} {pc : WorkerPc} (hnut : nutWeight w pc = 0)
    (hscrew : screwWeight w pc = 0) : pc.holds = 0 := by
  cases w <;> cases pc <;> simp_all [nutWeight, screwWeight, WorkerPc.holds, WorkerPc.nutsOwed,
    WorkerPc.screwsOwed, Worker.is_wrench]

theorem WorkerPc.holds_of_dev {pc : WorkerPc} {d : ℤ} (h : pc.dev = some d) : pc.holds = 1 := by
  cases pc <;> first | rfl | cases h

theorem WorkerPc.inside_of_closing {pc : WorkerPc} (h : pc.Closing) : pc.inside = 1 := by
  cases pc <;> first | rfl | cases h

/-- Only one worker is inside. -/
theorem Books.exclusive {s : State} (hb : Books s) {w u : Worker} (hw : (pcOf s w).inside = 1)
    (hu : (pcOf s u).inside = 1) : u = w := by
  by_contra hne
  have htwo : 2 ≤ ∑ c, (pcOf s c).inside :=
    two_le_census (w := fun _ pc => WorkerPc.inside pc) (f := pcOf s)
      (fun c => (pcOf s c).inside_nonneg) hne hu.ge hw.ge
  have hmutex := hb.mutex
  omega

end Assembly
