import OsLessons.Assembly.Devices

/-! # Device assembly: every run ends

  A worker that has installed a part goes once around its loop. There are three
  parts to a device, so a potential of twelve for each part that is missing
  pays for all rounds. An observer lists the installations, so that the parts of
  each device can be counted (`Listed`).
-/

namespace Assembly

open Lts Semaphore

/-- The operations of a worker up to its next installation, which pays for the
    rest, or up to its end. -/
def WorkerPc.left : WorkerPc → ℤ
  | .top => 7
  | .takeSlot => 6
  | .lockCheck => 5
  | .check => 4
  | .quitMutex => 2
  | .quitSlot => 1
  | .unlockCheck _ => 3
  | .working _ => 2
  | .lockInstall _ => 1
  | .install _ => 0
  | .error => 1
  | .openNuts => 11
  | .openScrew => 10
  | .testTarget => 9
  | .unlockInstall => 8
  | .gone => 0

theorem WorkerPc.left_nonneg (pc : WorkerPc) : 0 ≤ pc.left := by
  cases pc <;> simp [left]

/-- The parts that have been installed. -/
def Shared.installed (sh : Shared) : ℤ := 3 * sh.completed + sh.nuts + sh.screw

/-- An installation is one part more, also when it completes the device. -/
theorem installed_install (w : Worker) (sh : Shared) :
    (install w sh).1.installed = sh.installed + 1 := by
  unfold install Shared.put Shared.installed
  cases w <;> simp only [Worker.is_wrench, ↓reduceIte, Bool.false_eq_true] <;>
  · split_ifs with hlimit hdone
    · ring
    · obtain ⟨hnuts, hscrew⟩ := hdone
      simp only
      omega
    · ring

theorem installed_testTarget (sh : Shared) : (testTarget sh).installed = sh.installed := by
  unfold testTarget
  split <;> rfl

theorem left_install (w : Worker) (sh : Shared) : (install w sh).2.left ≤ 11 := by
  unfold install
  simp only
  split_ifs <;> simp [WorkerPc.left]

/-- Every operation lowers what is left of the worker, or installs a part. -/
theorem worker_lowers (w : Worker) (pc : WorkerPc) (sh : Shared) :
    (worker_loop w pc).Delta (fun _ => 0) (fun sh => -12 * sh.installed) WorkerPc.left pc sh
      (· ≤ -1) := by
  cases pc with
  | install dev =>
    intro a sh' pc' hf
    have heq : install w sh = (sh', pc') := Option.some.inj hf
    have hinstalled := installed_install w sh
    have hle := left_install w sh
    rw [heq] at hinstalled hle
    change -12 * sh'.installed - -12 * sh.installed + (pc'.left - 0) ≤ -1
    change sh'.installed = _ at hinstalled
    change pc'.left ≤ 11 at hle
    omega
  | testTarget =>
    intro a sh' pc' hf
    obtain ⟨rfl, rfl⟩ := Prod.mk.inj (Option.some.inj hf)
    have hinstalled := installed_testTarget sh
    change -12 * (testTarget sh).installed - -12 * sh.installed + (8 - 9) ≤ -1
    omega
  | top | check =>
    intro a sh' pc' hf
    obtain ⟨rfl, rfl⟩ := Prod.mk.inj (Option.some.inj hf)
    split <;> simp [WorkerPc.left]
  | working dev =>
    intro a sh' pc' hf
    obtain ⟨rfl, rfl⟩ := Prod.mk.inj (Option.some.inj hf)
    simp [WorkerPc.left]
  | _ => simp [worker_loop, Op.Delta, WorkerPc.left]

variable {target : ℤ} {s : State}

/-- No part is installed beyond the last device. -/
theorem installed_le (hi : Inv target s) (hb : Books s) : s.data.installed ≤ 3 * target := by
  unfold Shared.installed
  cases hstop : s.data.stop with
  | true =>
    obtain ⟨hcompleted, hnuts, hscrew⟩ := hi.stopped hstop
    omega
  | false =>
    have hweights : 0 ≤ ∑ w, nutWeight w (pcOf s w) ∧ 0 ≤ ∑ w, screwWeight w (pcOf s w) :=
      ⟨Finset.sum_nonneg fun w _ => nutWeight_nonneg w _,
        Finset.sum_nonneg fun w _ => screwWeight_nonneg w _⟩
    have hnuts := hb.nuts
    have hscrews := hb.screws
    rcases hi.going hstop with hlt | ⟨hcompleted, u, hu⟩
    · omega
    · obtain ⟨-, hnuts₀, hscrew₀⟩ := hi.closing u hu
      omega

/-! ### The parts of each device -/

/-- The device a worker installs its part in. -/
def WorkerPc.installing : WorkerPc → Option ℤ
  | .install dev => some dev
  | _ => none

/-- The installations so far: who, and in which device. -/
def noteInstall (s : State) (e : Event Worker Unit) (log : List (Worker × ℤ)) :
    List (Worker × ℤ) :=
  log ++ ((pcOf s e.thread).installing.map (e.thread, ·)).toList

/-- The nuts, or the screws, that were installed in device `d`. -/
def partsOf (nut : Bool) (d : ℤ) (log : List (Worker × ℤ)) : ℕ :=
  log.countP fun x => x.1.is_wrench = nut ∧ x.2 = d

/-- What belongs in the device `d`, with `now` in the present one. -/
def due (device_id now full d : ℤ) : ℤ :=
  if d = device_id then now else if 1 ≤ d ∧ d < device_id then full else 0

/-- The devices in front of the present one have their parts, and it has those
    that are counted. -/
structure Listed (s : State) (log : List (Worker × ℤ)) : Prop where
  first : 1 ≤ s.data.device_id
  nuts : ∀ d, (partsOf true d log : ℤ) = due s.data.device_id s.data.nuts 2 d
  screws : ∀ d, (partsOf false d log : ℤ) = due s.data.device_id s.data.screw 1 d

theorem listed_init : Listed (init target) [] where
  first := le_rfl
  nuts d := by
    show (0 : ℤ) = due 1 0 2 d
    unfold due
    split_ifs <;> omega
  screws d := by
    show (0 : ℤ) = due 1 0 1 d
    unfold due
    split_ifs <;> omega

theorem partsOf_append (nut : Bool) (d : ℤ) (log : List (Worker × ℤ)) (w : Worker) (dev : ℤ) :
    partsOf nut d (log ++ [(w, dev)]) =
      partsOf nut d log + if w.is_wrench = nut ∧ dev = d then 1 else 0 := by
  rw [partsOf, List.countP_append, List.countP_singleton, partsOf]
  simp

variable {s' : State} {e : Event Worker Unit} {log : List (Worker × ℤ)}

/-- One part more of one kind, in the present device. -/
theorem due_put {now full d dev : ℤ} {yes : Prop} [Decidable yes] :
    due dev now full d + (if yes ∧ dev = d then 1 else 0) =
      due dev (now + if yes then 1 else 0) full d := by
  by_cases hyes : yes
  · simp only [hyes, true_and, if_true]
    unfold due
    split_ifs <;> omega
  · simp [hyes]

/-- The present device is complete. -/
theorem due_complete {full dev d : ℤ} (hdev : 1 ≤ dev) :
    due (dev + 1) 0 full d = due dev full full d := by
  unfold due
  split_ifs <;> omega

theorem Listed.install (hl : Listed s log) (hi : Inv target s) {w : Worker} {dev : ℤ}
    (hpc : pcOf s w = .install dev) (hlimits : (s.data.put w).nuts ≤ 2 ∧ (s.data.put w).screw ≤ 1)
    (hdata : s'.data = (Assembly.install w s.data).1) : Listed s' (log ++ [(w, dev)]) := by
  obtain ⟨rfl, -⟩ := hi.committed w dev (by rw [hpc]; rfl)
  have hparts : ∀ nut d, (partsOf nut d (log ++ [(w, s.data.device_id)]) : ℤ) =
      partsOf nut d log + if w.is_wrench = nut ∧ s.data.device_id = d then 1 else 0 := by
    intro nut d
    rw [partsOf_append]
    push_cast
    rfl
  have hput : (s.data.put w).nuts = s.data.nuts + (if w.is_wrench = true then 1 else 0) ∧
      (s.data.put w).screw = s.data.screw + if w.is_wrench = false then 1 else 0 := by
    cases w <;> simp [Shared.put, Worker.is_wrench]
  obtain ⟨hid, -⟩ := put_eq s.data w
  rw [install_eq hlimits] at hdata
  split at hdata
  · next hdone =>
    -- the next device begins
    constructor
    case first =>
      rw [hdata]
      exact Int.le_add_one hl.first
    case nuts =>
      intro d
      rw [hparts, hl.nuts, due_put, ← hput.1, hdone.1, hdata]
      exact (due_complete hl.first).symm
    case screws =>
      intro d
      rw [hparts, hl.screws, due_put, ← hput.2, hdone.2, hdata]
      exact (due_complete hl.first).symm
  · constructor
    case first =>
      rw [hdata, hid]
      exact hl.first
    case nuts =>
      intro d
      rw [hparts, hl.nuts, due_put, ← hput.1, hdata, hid]
    case screws =>
      intro d
      rw [hparts, hl.screws, due_put, ← hput.2, hdata, hid]

/-- Every other move leaves the parts alone. -/
theorem Listed.quiet (hl : Listed s log) (hinstall : (pcOf s e.thread).installing = none)
    (hdata : s'.data.device_id = s.data.device_id ∧ s'.data.nuts = s.data.nuts ∧
      s'.data.screw = s.data.screw) : Listed s' (noteInstall s e log) := by
  obtain ⟨hid, hnuts, hscrew⟩ := hdata
  rw [noteInstall, hinstall]
  show Listed s' (log ++ [])
  rw [List.append_nil]
  exact ⟨hid ▸ hl.first, hid ▸ hnuts ▸ hl.nuts, hid ▸ hscrew ▸ hl.screws⟩

theorem Listed.step (hl : Listed s log) (hi : Inv target s) (hb : Books s)
    (h : Step workers s e s') : Listed s' (noteInstall s e log) := by
  obtain ⟨hmove, -⟩ := move_of_step h
  generalize hpc : pcOf s e.thread = pc at hmove
  generalize pcOf s' e.thread = pc' at hmove
  generalize hsh : s'.data = sh at hmove
  cases hmove with
  | install =>
    rw [noteInstall, hpc]
    exact hl.install hi hpc (hb.limits hpc) hsh
  | testTarget =>
    refine hl.quiet (by rw [hpc]; rfl) ?_
    rw [hsh]
    unfold testTarget
    split <;> exact ⟨rfl, rfl, rfl⟩
  | _ => exact hl.quiet (by rw [hpc]; rfl) (by rw [hsh]; exact ⟨rfl, rfl, rfl⟩)

/-- The assembly, with the installations listed. -/
def listed (target : ℤ) : System (State × List (Worker × ℤ)) (Event Worker Unit) :=
  (assembly target).observe [] noteInstall

theorem listed_of_reachable (ht : 1 ≤ target) {x : State × List (Worker × ℤ)}
    (h : (listed target).Reachable x) : Listed x.1 x.2 := by
  have hinv : ∀ x, (listed target).Reachable x → Inv target x.1 ∧ Books x.1 := fun x hx =>
    ⟨invariant ht hx.of_observe, books hx.of_observe⟩
  refine System.invariant_of (I := fun x => Listed x.1 x.2) hinv ?_ ?_ h
  · rintro ⟨s, log⟩ ⟨rfl, rfl⟩
    exact listed_init
  · rintro ⟨s, log⟩ e ⟨s', log'⟩ ⟨hi, hb⟩ hl ⟨hstep, rfl⟩
    exact hl.step hi hb hstep

/-- **Every run ends** after at most 36 operations for each device, and where it
    cannot go on the three workers have left, `target` devices are complete, two
    nuts and a screw have been installed in each of them, no part is left over,
    and the semaphores are as at the start. -/
theorem every_run_ends (ht : 1 ≤ target) {es : List (Event Worker Unit)}
    (h : (assembly target).Run (init target) es s) :
    (es.length : ℤ) ≤ 36 * target + 21 ∧
      ((∀ e, ¬ (assembly target).Enabled s e) →
        (∀ w, pcOf s w = .gone) ∧ s.data.installed = 3 * target ∧ s.data.completed = target ∧
          s.sem = init_vals ∧
          ∃ log, (listed target).Run (init target, []) es (s, log) ∧
            ∀ d, partsOf true d log = (if 1 ≤ d ∧ d ≤ target then 2 else 0) ∧
              partsOf false d log = if 1 ≤ d ∧ d ≤ target then 1 else 0) := by
  have hinit : (assembly target).Reachable (init target) := .init rfl
  have hreach := h.reachable hinit
  have hi := invariant ht hreach
  have hb := books hreach
  constructor
  · have hle := run_length_le (I := fun _ _ => True) (fun _ _ _ => trivial)
      (fun w pc sh _ => worker_lowers w pc sh) (fun _ _ _ _ hl => by cases hl) h hinit
    have hleft : 0 ≤ ∑ w, (pcOf s w).left := Finset.sum_nonneg fun w _ => (pcOf s w).left_nonneg
    have hparts := installed_le hi hb
    have hstart : value (fun _ => 0) (fun sh : Shared => -12 * sh.installed)
        (fun _ : Worker => WorkerPc.left) (init target) = 21 := by
      simp [value, init, Shared.installed, WorkerPc.left]
      rfl
    have hend : value (fun _ => 0) (fun sh : Shared => -12 * sh.installed)
        (fun _ : Worker => WorkerPc.left) s = -12 * s.data.installed + ∑ w, (pcOf s w).left := by
      simp [value]
      rfl
    omega
  · intro hquiet
    have hgone := gone_of_quiet hi hb hquiet
    obtain ⟨hnuts, hscrews⟩ := hb.slots fun w => .inl (hgone w)
    obtain ⟨hcompleted, hnuts₀, hscrew₀⟩ :=
      hi.stopped (hi.quitting .wrench1 (by rw [hgone]; trivial))
    have hmutex := hb.mutex
    have hoff : ∑ w, (pcOf s w).inside = 0 := Finset.sum_eq_zero fun w _ => by
      rw [hgone w]
      rfl
    refine ⟨hgone, ?_, hcompleted, ?_, ?_⟩
    · unfold Shared.installed
      omega
    · funext k
      cases k <;> simp only [init_vals] <;> omega
    · obtain ⟨log, hlog⟩ : ∃ log, (listed target).Run (init target, []) es (s, log) :=
        h.observed []
      have hlisted := listed_of_reachable ht (hlog.reachable (.init ⟨rfl, rfl⟩))
      refine ⟨log, hlog, fun d => ?_⟩
      have hnut := hlisted.nuts d
      have hscrew := hlisted.screws d
      simp only [hi.device_id_eq, hcompleted, hnuts₀, hscrew₀, due] at hnut hscrew
      split_ifs at hnut hscrew ⊢ <;> omega

theorem every_run_ends_one : ∃ s, (assembly 1).Run (init 1) deviceRun s ∧
    (deviceRun.length : ℤ) ≤ 57 := by
  have hrun : (replay workers (init 1) deviceRun).isSome = true := by decide +kernel
  obtain ⟨s, hreplay⟩ := Option.isSome_iff_exists.mp hrun
  have hdevice : (assembly 1).Run (init 1) deviceRun s := Run.of_replay hreplay
  exact ⟨s, hdevice, (every_run_ends (by decide) hdevice).1⟩

end Assembly
