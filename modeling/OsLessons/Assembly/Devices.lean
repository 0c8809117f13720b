import OsLessons.Assembly.Invariant

/-! # Device assembly: devices in order

  The invariant of the shared record. The worker that completes a device leaves
  nobody with a slot of it, and stays behind the mutex until `stop` is decided,
  so a slot of the next device is checked against the new `device_id`.
-/

namespace Assembly

open Lts Semaphore Census

/-! ### Moves -/

/-- What one worker does to its place and to the shared record. -/
inductive Move (w : Worker) (sh : Shared) : WorkerPc → Shared → WorkerPc → Prop where
  | top : Move w sh .top sh (if sh.stop then .gone else .takeSlot)
  | takeSlot : Move w sh .takeSlot sh .lockCheck
  | lockCheck : Move w sh .lockCheck sh .check
  | check : Move w sh .check sh (if sh.stop then .quitMutex else .unlockCheck sh.device_id)
  | quitMutex : Move w sh .quitMutex sh .quitSlot
  | quitSlot : Move w sh .quitSlot sh .gone
  | unlockCheck {dev} : Move w sh (.unlockCheck dev) sh (.working dev)
  | working {dev} : Move w sh (.working dev) sh (.lockInstall dev)
  | lockInstall {dev} : Move w sh (.lockInstall dev) sh (.install dev)
  | install {dev} : Move w sh (.install dev) (install w sh).1 (install w sh).2
  | error : Move w sh .error sh .gone
  | openNuts : Move w sh .openNuts sh .openScrew
  | openScrew : Move w sh .openScrew sh .testTarget
  | testTarget : Move w sh .testTarget (testTarget sh) .unlockInstall
  | unlockInstall : Move w sh .unlockInstall sh .top

theorem move_of_leads {w : Worker} {pc pc' : WorkerPc} {s s' : State}
    (h : (worker_loop w pc).Leads workers s s' pc') : Move w s.data pc s'.data pc' := by
  cases pc with
  | top | check | working =>
    obtain ⟨_, hf⟩ := h
    obtain ⟨hdata, rfl⟩ := Prod.mk.inj (Option.some.inj hf)
    rw [← hdata]
    constructor
  | install | testTarget =>
    obtain ⟨_, hf⟩ := h
    have heq := Option.some.inj hf
    rw [← show _ = s'.data from congrArg Prod.fst heq, ← show _ = pc' from congrArg Prod.snd heq]
    constructor
  | takeSlot | lockCheck | lockInstall =>
    obtain ⟨_, hdata, rfl⟩ := h
    rw [hdata]
    constructor
  | quitMutex | quitSlot | unlockCheck | error | openNuts | openScrew | unlockInstall =>
    obtain ⟨hdata, rfl⟩ := h
    rw [hdata]
    constructor
  | gone => cases h

/-- One worker moves, and the others stay. -/
theorem move_of_step {s s' : State} {e : Event Worker Unit} (h : Step workers s e s') :
    Move e.thread s.data (pcOf s e.thread) s'.data (pcOf s' e.thread) ∧
      ∀ u, u ≠ e.thread → pcOf s' u = pcOf s u := by
  constructor
  · rcases h.leads with hleads | ⟨-, hhandler⟩
    · exact move_of_leads hleads
    · cases hhandler
  · intro u hu
    exact h.frame hu

/-! ### The invariant -/

structure Inv (target : ℤ) (s : State) : Prop where
  target_eq : s.data.target = target
  device_id_eq : s.data.device_id = s.data.completed + 1
  nuts_nonneg : 0 ≤ s.data.nuts
  screw_nonneg : 0 ≤ s.data.screw
  /-- no device is left complete -/
  parts : ¬ (s.data.nuts = 2 ∧ s.data.screw = 1)
  /-- whoever has read the device works on the present one -/
  committed : ∀ w d, (pcOf s w).dev = some d →
    d = s.data.device_id ∧ s.data.stop = false ∧ ∀ u, ¬ (pcOf s u).Closing
  going : s.data.stop = false →
    s.data.completed < target ∨ (s.data.completed = target ∧ ∃ u, (pcOf s u).Closing)
  closing : ∀ w, (pcOf s w).Closing →
    s.data.stop = false ∧ s.data.nuts = 0 ∧ s.data.screw = 0
  stopped : s.data.stop = true →
    s.data.completed = target ∧ s.data.nuts = 0 ∧ s.data.screw = 0
  quitting : ∀ w, (pcOf s w).Quitting → s.data.stop = true
  no_error : ∀ w, pcOf s w ≠ .error

theorem inv_init {target : ℤ} (ht : 1 ≤ target) : Inv target (init target) where
  target_eq := rfl
  device_id_eq := rfl
  nuts_nonneg := le_refl _
  screw_nonneg := le_refl _
  parts := by rintro ⟨⟨⟩, -⟩
  committed := by rintro w d ⟨⟩
  going _ := by
    left
    show 0 < target
    omega
  closing := by rintro w ⟨⟩
  stopped := by rintro ⟨⟩
  quitting := by rintro w ⟨⟩
  no_error := by rintro w ⟨⟩

variable {target : ℤ} {s s' : State} {w : Worker}

/-- A move that leaves the record alone, and neither starts nor ends the change
    of the device. -/
theorem Inv.quiet (hi : Inv target s) (hdata : s'.data = s.data)
    (hframe : ∀ u, u ≠ w → pcOf s' u = pcOf s u)
    (hdev : ∀ d, (pcOf s' w).dev = some d → (pcOf s w).dev = some d ∨
      (d = s.data.device_id ∧ s.data.stop = false ∧ ∀ u, ¬ (pcOf s u).Closing))
    (hclosing : (pcOf s' w).Closing ↔ (pcOf s w).Closing)
    (hquit : (pcOf s' w).Quitting → s.data.stop = true) (herror : pcOf s' w ≠ .error) :
    Inv target s' := by
  have hclosing' : ∀ u, (pcOf s' u).Closing ↔ (pcOf s u).Closing := by
    intro u
    rcases eq_or_ne u w with rfl | hne
    · exact hclosing
    · rw [hframe u hne]
  constructor
  case target_eq => rw [hdata]; exact hi.target_eq
  case device_id_eq => rw [hdata]; exact hi.device_id_eq
  case nuts_nonneg => rw [hdata]; exact hi.nuts_nonneg
  case screw_nonneg => rw [hdata]; exact hi.screw_nonneg
  case parts => rw [hdata]; exact hi.parts
  case stopped => rw [hdata]; exact hi.stopped
  case committed =>
    intro u d hd
    simp only [hdata, hclosing']
    rcases eq_or_ne u w with rfl | hne
    · rcases hdev d hd with hd | hd
      · exact hi.committed u d hd
      · exact hd
    · rw [hframe u hne] at hd
      exact hi.committed u d hd
  case going => simpa only [hdata, hclosing'] using hi.going
  case closing => simpa only [hdata, hclosing'] using hi.closing
  case quitting =>
    intro u hu
    rw [hdata]
    rcases eq_or_ne u w with rfl | hne
    · exact hquit hu
    · rw [hframe u hne] at hu
      exact hi.quitting u hu
  case no_error =>
    intro u
    rcases eq_or_ne u w with rfl | hne
    · exact herror
    · rw [hframe u hne]
      exact hi.no_error u

/-- Nobody else has a slot once all of them are free, parts or owed by `w`. -/
theorem Books.dev_none (hb : Books s) (hnuts : 2 ≤ s.data.nuts + nutWeight w (pcOf s w))
    (hscrews : 1 ≤ s.data.screw + screwWeight w (pcOf s w)) {u : Worker} (hu : u ≠ w) :
    (pcOf s u).dev = none := by
  have hsplit : ∀ v : Worker → WorkerPc → ℤ, (∀ c, 0 ≤ v c (pcOf s c)) →
      v w (pcOf s w) + v u (pcOf s u) ≤ ∑ c, v c (pcOf s c) := by
    intro v hv
    rw [← Finset.add_sum_erase _ _ (Finset.mem_univ w)]
    have hle := Finset.single_le_sum (f := fun c => v c (pcOf s c)) (fun c _ => hv c)
      (Finset.mem_erase.mpr ⟨hu, Finset.mem_univ u⟩)
    exact Int.add_le_add_left hle _
  have hnut := hsplit nutWeight fun c => nutWeight_nonneg c _
  have hscrew := hsplit screwWeight fun c => screwWeight_nonneg c _
  have hnut₀ := nutWeight_nonneg u (pcOf s u)
  have hscrew₀ := screwWeight_nonneg u (pcOf s u)
  have hlaws := And.intro hb.nuts hb.screws
  have hzero : (pcOf s u).holds = 0 := holds_eq_zero (w := u) (by omega) (by omega)
  cases hd : (pcOf s u).dev with
  | none => rfl
  | some d =>
    rw [WorkerPc.holds_of_dev hd] at hzero
    cases hzero

/-- With the mutex free, slots that are not free are held or have become parts. -/
theorem Books.free (hb : Books s) (h : s.sem .SEM_MUTEX = 1) :
    (s.sem .SEM_NUT_SLOTS : ℤ) + ((pcOf s .wrench1).holds + (pcOf s .wrench2).holds) +
        s.data.nuts = 2 ∧
      (s.sem .SEM_SCREW_SLOTS : ℤ) + (pcOf s .screwdriver).holds + s.data.screw = 1 := by
  have hinside : ∀ w, (pcOf s w).inside = 0 := by
    intro w
    have hle : (pcOf s w).inside ≤ ∑ u, (pcOf s u).inside :=
      le_census (w := fun _ pc => WorkerPc.inside pc) (fun u => (pcOf s u).inside_nonneg) w
    have hnonneg := (pcOf s w).inside_nonneg
    have hmutex := hb.mutex
    omega
  have howed : ∀ w, (pcOf s w).nutsOwed = 0 ∧ (pcOf s w).screwsOwed = 0 := by
    intro w
    exact WorkerPc.owed_eq_zero (hinside w)
  have hnuts := hb.nuts
  have hscrews := hb.screws
  have hsum : ∀ f : Worker → ℤ, ∑ w, f w = f .wrench1 + (f .wrench2 + (f .screwdriver + 0)) :=
    fun f => rfl
  rw [hsum] at hnuts hscrews
  simp only [nutWeight, screwWeight, howed, Worker.is_wrench, ↓reduceIte, Bool.false_eq_true]
    at hnuts hscrews
  omega

/-- One part more is within the limits. -/
theorem Books.limits (hb : Books s) {d : ℤ} (hpc : pcOf s w = .install d) :
    (s.data.put w).nuts ≤ 2 ∧ (s.data.put w).screw ≤ 1 := by
  have hnut : nutWeight w (pcOf s w) ≤ ∑ u, nutWeight u (pcOf s u) :=
    le_census (w := nutWeight) (fun u => nutWeight_nonneg u _) w
  have hscrew : screwWeight w (pcOf s w) ≤ ∑ u, screwWeight u (pcOf s u) :=
    le_census (w := screwWeight) (fun u => screwWeight_nonneg u _) w
  have hnuts := hb.nuts
  have hscrews := hb.screws
  rw [hpc] at hnut hscrew
  cases w with
  | wrench1 | wrench2 =>
    change 1 ≤ _ at hnut
    change 0 ≤ _ at hscrew
    show s.data.nuts + 1 ≤ 2 ∧ s.data.screw ≤ 1
    omega
  | screwdriver =>
    change 0 ≤ _ at hnut
    change 1 ≤ _ at hscrew
    show s.data.nuts ≤ 2 ∧ s.data.screw + 1 ≤ 1
    omega

theorem install_eq {sh : Shared} (h : (sh.put w).nuts ≤ 2 ∧ (sh.put w).screw ≤ 1) :
    install w sh =
      if (sh.put w).nuts = 2 ∧ (sh.put w).screw = 1 then
        ({ sh with completed := sh.completed + 1, device_id := sh.device_id + 1, nuts := 0,
                   screw := 0 }, .openNuts)
      else (sh.put w, .unlockInstall) := by
  have hlimit : ¬ ((sh.put w).nuts > 2 ∨ (sh.put w).screw > 1) := by omega
  cases w <;> simp only [install, hlimit, ↓reduceIte] <;> rfl

/-- What a worker that installs finds. -/
theorem Inv.at_install (hi : Inv target s) {d : ℤ} (hpc : pcOf s w = .install d) :
    s.data.stop = false ∧ s.data.completed < target ∧
      ∀ u, ¬ (pcOf s u).Closing ∧ ¬ (pcOf s u).Quitting := by
  obtain ⟨-, hstop, hopen⟩ := hi.committed w d (by rw [hpc]; rfl)
  refine ⟨hstop, ?_, fun u => ⟨hopen u, fun hq => ?_⟩⟩
  · rcases hi.going hstop with hlt | ⟨-, u, hu⟩
    · exact hlt
    · exact absurd hu (hopen u)
  · rw [hi.quitting u hq] at hstop
    cases hstop

/-- The last part of a device. -/
theorem Inv.complete (hi : Inv target s) (hb' : Books s')
    (hframe : ∀ u, u ≠ w → pcOf s' u = pcOf s u) {d : ℤ} (hpc : pcOf s w = .install d)
    (hdata : s'.data = { s.data with
      completed := s.data.completed + 1, device_id := s.data.device_id + 1, nuts := 0, screw := 0 })
    (hpc' : pcOf s' w = .openNuts) : Inv target s' := by
  obtain ⟨hstop, hlt, hothers⟩ := hi.at_install hpc
  have hnobody : ∀ u d, (pcOf s' u).dev ≠ some d := by
    intro u d hd
    rcases eq_or_ne u w with rfl | hne
    · rw [hpc'] at hd
      cases hd
    · rw [hb'.dev_none (w := w) _ _ hne] at hd
      · cases hd
      · rw [hdata, hpc']
        show 2 ≤ 0 + nutWeight w .openNuts
        cases w <;> decide
      · rw [hdata, hpc']
        show 1 ≤ 0 + screwWeight w .openNuts
        cases w <;> decide
  constructor
  case target_eq => rw [hdata]; exact hi.target_eq
  case device_id_eq => rw [hdata, hi.device_id_eq]
  case nuts_nonneg | screw_nonneg => rw [hdata]
  case parts =>
    rw [hdata]
    rintro ⟨⟨⟩, -⟩
  case committed => exact fun u d hd => absurd hd (hnobody u d)
  case going =>
    intro _
    rw [hdata]
    rcases lt_or_eq_of_le (Int.add_one_le_of_lt hlt) with hlt | heq
    · exact .inl hlt
    · exact .inr ⟨heq, w, by rw [hpc']; trivial⟩
  case closing =>
    intro _ _
    rw [hdata]
    exact ⟨hstop, rfl, rfl⟩
  case stopped =>
    rw [hdata]
    intro htrue
    rw [show s.data.stop = true from htrue] at hstop
    cases hstop
  case quitting =>
    intro u hq
    rcases eq_or_ne u w with rfl | hne
    · rw [hpc'] at hq
      cases hq
    · rw [hframe u hne] at hq
      exact absurd hq (hothers u).2
  case no_error =>
    intro u
    rcases eq_or_ne u w with rfl | hne
    · rw [hpc']
      rintro ⟨⟩
    · rw [hframe u hne]
      exact hi.no_error u

theorem put_eq (sh : Shared) (w : Worker) :
    (sh.put w).device_id = sh.device_id ∧ (sh.put w).completed = sh.completed ∧
    (sh.put w).target = sh.target ∧ (sh.put w).stop = sh.stop ∧
    sh.nuts ≤ (sh.put w).nuts ∧ sh.screw ≤ (sh.put w).screw := by
  cases w <;> simp [Shared.put, Worker.is_wrench]

/-- A part that leaves the device incomplete. -/
theorem Inv.part (hi : Inv target s) (hframe : ∀ u, u ≠ w → pcOf s' u = pcOf s u) {d : ℤ}
    (hpc : pcOf s w = .install d) (hdata : s'.data = s.data.put w)
    (hparts : ¬ ((s.data.put w).nuts = 2 ∧ (s.data.put w).screw = 1))
    (hpc' : pcOf s' w = .unlockInstall) : Inv target s' := by
  obtain ⟨hstop, hlt, hothers⟩ := hi.at_install hpc
  obtain ⟨hid, hcompleted, htarget, hstop', hnuts, hscrew⟩ := put_eq s.data w
  have hrest : ∀ u, ¬ (pcOf s' u).Closing ∧ ¬ (pcOf s' u).Quitting ∧ pcOf s' u ≠ .error ∧
      ∀ d, (pcOf s' u).dev = some d → (pcOf s u).dev = some d := by
    intro u
    rcases eq_or_ne u w with rfl | hne
    · rw [hpc']
      refine ⟨id, id, ?_, ?_⟩
      · rintro ⟨⟩
      · rintro d ⟨⟩
    · rw [hframe u hne]
      exact ⟨(hothers u).1, (hothers u).2, hi.no_error u, fun d hd => hd⟩
  constructor
  case target_eq => rw [hdata, htarget]; exact hi.target_eq
  case device_id_eq => rw [hdata, hid, hcompleted]; exact hi.device_id_eq
  case nuts_nonneg => rw [hdata]; exact hi.nuts_nonneg.trans hnuts
  case screw_nonneg => rw [hdata]; exact hi.screw_nonneg.trans hscrew
  case parts => rwa [hdata]
  case committed =>
    intro u d hd
    rw [hdata, hid, hstop']
    exact ⟨(hi.committed u d ((hrest u).2.2.2 d hd)).1, hstop, fun v => (hrest v).1⟩
  case going =>
    intro _
    rw [hdata, hcompleted]
    exact .inl hlt
  case closing => exact fun u hu => absurd hu (hrest u).1
  case stopped =>
    rw [hdata, hstop', hstop]
    rintro ⟨⟩
  case quitting => exact fun u hu => absurd hu (hrest u).2.1
  case no_error => exact fun u => (hrest u).2.2.1

/-- `stop` is decided with the new device in place. -/
theorem Inv.testTarget (hi : Inv target s) (hb : Books s)
    (hframe : ∀ u, u ≠ w → pcOf s' u = pcOf s u) (hpc : pcOf s w = .testTarget)
    (hdata : s'.data = testTarget s.data) (hpc' : pcOf s' w = .unlockInstall) :
    Inv target s' := by
  have hw : (pcOf s w).Closing := by
    rw [hpc]
    trivial
  obtain ⟨hstop, hnuts, hscrew⟩ := hi.closing w hw
  have hgoing := hi.going hstop
  have hrest : ∀ u, ¬ (pcOf s' u).Closing ∧ ¬ (pcOf s' u).Quitting ∧ pcOf s' u ≠ .error ∧
      (pcOf s' u).dev = none := by
    intro u
    rcases eq_or_ne u w with rfl | hne
    · rw [hpc']
      exact ⟨id, id, by rintro ⟨⟩, rfl⟩
    · rw [hframe u hne]
      refine ⟨fun hu => hne ?_, fun hu => ?_, hi.no_error u, ?_⟩
      · exact hb.exclusive (WorkerPc.inside_of_closing hw) (WorkerPc.inside_of_closing hu)
      · rw [hi.quitting u hu] at hstop
        cases hstop
      · cases hd : (pcOf s u).dev with
        | none => rfl
        | some d => exact absurd hw ((hi.committed u d hd).2.2 w)
  obtain rfl := hi.target_eq
  have hsame : s'.data =
      { s.data with stop := decide (s.data.target ≤ s.data.completed) } := by
    rw [hdata]
    unfold Assembly.testTarget
    by_cases hge : s.data.target ≤ s.data.completed
    · rw [if_pos hge, decide_eq_true hge]
    · rw [if_neg hge, decide_eq_false hge, ← hstop]
  constructor
  case target_eq => rw [hsame]
  case device_id_eq => rw [hsame]; exact hi.device_id_eq
  case nuts_nonneg => rw [hsame]; exact hi.nuts_nonneg
  case screw_nonneg => rw [hsame]; exact hi.screw_nonneg
  case parts => rw [hsame]; exact hi.parts
  case committed =>
    intro u d hd
    rw [(hrest u).2.2.2] at hd
    cases hd
  case going =>
    rw [hsame]
    intro hlt
    exact .inl (not_le.mp (of_decide_eq_false hlt))
  case closing => exact fun u hu => absurd hu (hrest u).1
  case stopped =>
    rw [hsame]
    intro hge
    have hle : s.data.target ≤ s.data.completed := of_decide_eq_true hge
    refine ⟨?_, hnuts, hscrew⟩
    show s.data.completed = s.data.target
    omega
  case quitting => exact fun u hu => absurd hu (hrest u).2.1
  case no_error => exact fun u => (hrest u).2.2.1

theorem Inv.step (hi : Inv target s) (hb : Books s) (hb' : Books s') {e : Event Worker Unit}
    (h : Step workers s e s') : Inv target s' := by
  obtain ⟨hmove, hframe⟩ := move_of_step h
  generalize hpc : pcOf s e.thread = pc at hmove
  generalize hpc' : pcOf s' e.thread = pc' at hmove
  generalize hsh : s'.data = sh at hmove
  cases hmove with
  | install =>
    have hlimits := hb.limits hpc
    rw [install_eq hlimits] at hsh hpc'
    split at hsh
    · next hdone =>
      rw [if_pos hdone] at hpc'
      exact hi.complete hb' hframe hpc hsh hpc'
    · next hdone =>
      rw [if_neg hdone] at hpc'
      exact hi.part hframe hpc hsh hdone hpc'
  | testTarget => exact hi.testTarget hb hframe hpc hsh hpc'
  | error => exact absurd hpc (hi.no_error _)
  | top =>
    cases hstop : s.data.stop <;> rw [hstop] at hpc'
    · apply hi.quiet hsh hframe <;> simp [hpc, hpc', WorkerPc.dev, WorkerPc.Closing, WorkerPc.Quitting]
    · apply hi.quiet hsh hframe <;> simp [hpc, hpc', WorkerPc.dev, WorkerPc.Closing, hstop]
  | check =>
    -- nobody changes the device while `e.thread` is inside
    have hnobody : ∀ u, ¬ (pcOf s u).Closing := by
      intro u hu
      have heq := hb.exclusive (w := e.thread) (by rw [hpc]; rfl) (WorkerPc.inside_of_closing hu)
      rw [heq, hpc] at hu
      exact hu
    cases hstop : s.data.stop <;> rw [hstop] at hpc'
    · apply hi.quiet hsh hframe
      · intro d hd
        rw [hpc'] at hd
        cases hd
        exact .inr ⟨rfl, hstop, hnobody⟩
      all_goals simp [hpc, hpc', WorkerPc.Closing, WorkerPc.Quitting]
    · apply hi.quiet hsh hframe <;> simp [hpc, hpc', WorkerPc.dev, WorkerPc.Closing, hstop]
  | quitMutex | quitSlot =>
    have hstop := hi.quitting e.thread (by rw [hpc]; trivial)
    apply hi.quiet hsh hframe <;> simp [hpc, hpc', WorkerPc.dev, WorkerPc.Closing, hstop]
  | _ =>
    apply hi.quiet hsh hframe <;> simp [hpc, hpc', WorkerPc.dev, WorkerPc.Closing, WorkerPc.Quitting]

theorem invariant {target : ℤ} (ht : 1 ≤ target) {s : State} (h : (assembly target).Reachable s) :
    Inv target s := by
  induction h with
  | init hs =>
    cases hs
    exact inv_init ht
  | step hreach hstep ih => exact ih.step (books hreach) (books (.step hreach hstep)) hstep

/-! ### Progress -/

/-- What a worker that cannot move waits for. -/
theorem waits_of_quiet (hquiet : ∀ e, ¬ (assembly target).Enabled s e) (w : Worker) :
    pcOf s w = .gone ∨ (pcOf s w = .takeSlot ∧ s.sem w.slot_sem = 0) ∨
      (s.sem .SEM_MUTEX = 0 ∧ (pcOf s w).inside = 0) := by
  have hstuck : (worker_loop w (pcOf s w)).Stuck workers s := stuck_of_not_enabled hquiet w
  cases hpc : pcOf s w with
  | top | check | working | install | testTarget =>
    rw [hpc] at hstuck
    cases hstuck ()
  | takeSlot =>
    rw [hpc] at hstuck
    exact .inr (.inl ⟨rfl, hstuck⟩)
  | lockCheck | lockInstall =>
    rw [hpc] at hstuck
    exact .inr (.inr ⟨hstuck, rfl⟩)
  | quitMutex | quitSlot | unlockCheck | error | openNuts | openScrew | unlockInstall =>
    rw [hpc] at hstuck
    cases hstuck
  | gone => exact .inl rfl

/-- Where nobody can move nobody is behind the mutex, so everybody waits for a
    slot or has left. -/
theorem slot_of_quiet (hb : Books s) (hquiet : ∀ e, ¬ (assembly target).Enabled s e)
    (w : Worker) :
    pcOf s w = .gone ∨ (pcOf s w = .takeSlot ∧ s.sem w.slot_sem = 0) := by
  have hinside : ∀ u, (pcOf s u).inside = 0 := by
    intro u
    rcases waits_of_quiet hquiet u with h | ⟨h, -⟩ | ⟨-, h⟩
    · rw [h]; rfl
    · rw [h]; rfl
    · exact h
  have hmutex := hb.mutex
  simp only [hinside, Finset.sum_const_zero] at hmutex
  rcases waits_of_quiet hquiet w with h | h | ⟨h, -⟩
  · exact .inl h
  · exact .inr h
  · omega

/-- Nobody holds a slot or is about to open one. -/
theorem Books.slots (hb : Books s)
    (h : ∀ w, pcOf s w = .gone ∨ pcOf s w = .takeSlot) :
    (s.sem .SEM_NUT_SLOTS : ℤ) + s.data.nuts = 2 ∧
      (s.sem .SEM_SCREW_SLOTS : ℤ) + s.data.screw = 1 := by
  have hweights : ∀ w, nutWeight w (pcOf s w) = 0 ∧ screwWeight w (pcOf s w) = 0 := by
    intro w
    rcases h w with hw | hw <;>
    · rw [hw]
      cases w <;> decide
  have hnuts := hb.nuts
  have hscrews := hb.screws
  rw [Finset.sum_eq_zero fun w _ => (hweights w).1] at hnuts
  rw [Finset.sum_eq_zero fun w _ => (hweights w).2] at hscrews
  omega

/-- Where nobody can move, everybody has left: an unfinished device has a free
    slot for one of the two kinds of worker. -/
theorem gone_of_quiet (hi : Inv target s) (hb : Books s)
    (hquiet : ∀ e, ¬ (assembly target).Enabled s e) (w : Worker) : pcOf s w = .gone := by
  have hwait := slot_of_quiet hb hquiet
  obtain ⟨hnuts, hscrews⟩ := hb.slots fun w => (hwait w).imp_right And.left
  have hparts := hi.parts
  have hnut₀ := hi.nuts_nonneg
  have hscrew₀ := hi.screw_nonneg
  -- once one worker has left, `stop` is set and the slots are free
  have hleft : ∀ u, pcOf s u = .gone → s.data.nuts = 0 ∧ s.data.screw = 0 := by
    intro u hu
    exact (hi.stopped (hi.quitting u (by rw [hu]; trivial))).2
  rcases hwait w with hgone | ⟨-, hw⟩
  · exact hgone
  · exfalso
    have hwrench := hwait .wrench1
    have hdriver := hwait .screwdriver
    change _ ∨ _ ∧ s.sem .SEM_NUT_SLOTS = 0 at hwrench
    change _ ∨ _ ∧ s.sem .SEM_SCREW_SLOTS = 0 at hdriver
    rcases hwrench with hwrench | ⟨-, hwrench⟩
    · have hfree := hleft _ hwrench
      cases w with
      | wrench1 | wrench2 =>
        change s.sem .SEM_NUT_SLOTS = 0 at hw
        omega
      | screwdriver =>
        change s.sem .SEM_SCREW_SLOTS = 0 at hw
        omega
    · rcases hdriver with hdriver | ⟨-, hdriver⟩
      · have hfree := hleft _ hdriver
        omega
      · omega

/-- **Device assembly**: slots and parts add up across devices, a part goes to
    the device its worker read, and the workers leave after `target` devices.
    (`target` is below the largest `int`, so that `device_id` is one, too.) -/
theorem devices {target : ℤ} (ht : 1 ≤ target) {s : State}
    (h : (assembly target).Reachable s) :
    (s.sem .SEM_MUTEX = 1 →
      (s.sem .SEM_NUT_SLOTS : ℤ) + ((pcOf s .wrench1).holds + (pcOf s .wrench2).holds) +
        s.data.nuts = 2 ∧
      (s.sem .SEM_SCREW_SLOTS : ℤ) + (pcOf s .screwdriver).holds + s.data.screw = 1) ∧
    (∀ w, pcOf s w ≠ .error) ∧
    (∀ w dev, pcOf s w = .install dev → dev = s.data.device_id ∧ s.data.stop = false) ∧
    s.data.completed ≤ target ∧ s.data.device_id = s.data.completed + 1 ∧
    ((∃ w, pcOf s w ≠ .gone) → ∃ e, (assembly target).Enabled s e) ∧
    ((∀ w, pcOf s w = .gone) → s.data.completed = target ∧
      s.sem .SEM_NUT_SLOTS = 2 ∧ s.sem .SEM_SCREW_SLOTS = 1) := by
  have hi := invariant ht h
  have hb := books h
  refine ⟨hb.free, hi.no_error, ?_, ?_, hi.device_id_eq, ?_, ?_⟩
  · intro w dev hpc
    obtain ⟨heq, hstop, -⟩ := hi.committed w dev (by rw [hpc]; rfl)
    exact ⟨heq, hstop⟩
  · cases hstop : s.data.stop with
    | true => exact (hi.stopped hstop).1.le
    | false =>
      rcases hi.going hstop with hlt | ⟨heq, -⟩
      · exact hlt.le
      · exact heq.le
  · rintro ⟨w, hw⟩
    by_contra hnone
    exact hw (gone_of_quiet hi hb (fun e he => hnone ⟨e, he⟩) w)
  · intro hgone
    obtain ⟨hnuts, hscrews⟩ := hb.slots fun w => .inl (hgone w)
    obtain ⟨hcompleted, hnuts₀, hscrew₀⟩ :=
      hi.stopped (hi.quitting .wrench1 (by rw [hgone]; trivial))
    refine ⟨hcompleted, ?_, ?_⟩ <;> omega

/-- From the head of the loop to the section that installs. -/
def partRun (w : Worker) : List (Event Worker Unit) :=
  [.act w (), .run w, .run w, .act w (), .run w, .act w (), .run w, .act w ()]

/-- One device: the screwdriver comes last, closes it and sets `stop`. -/
def deviceRun : List (Event Worker Unit) :=
  partRun .wrench1 ++ [.run .wrench1] ++ partRun .wrench2 ++ [.run .wrench2] ++
    partRun .screwdriver ++
    [.run .screwdriver, .run .screwdriver, .act .screwdriver (), .run .screwdriver,
      .act .screwdriver (), .act .wrench1 (), .act .wrench2 ()]

theorem devices_one : ∃ s, (assembly 1).Reachable s ∧
    (pcOf s .wrench1 = .gone ∧ pcOf s .wrench2 = .gone ∧ pcOf s .screwdriver = .gone) ∧
    ((s.sem .SEM_MUTEX = 1 →
      (s.sem .SEM_NUT_SLOTS : ℤ) + ((pcOf s .wrench1).holds + (pcOf s .wrench2).holds) +
        s.data.nuts = 2 ∧
      (s.sem .SEM_SCREW_SLOTS : ℤ) + (pcOf s .screwdriver).holds + s.data.screw = 1) ∧
    (∀ w, pcOf s w ≠ .error) ∧
    (∀ w dev, pcOf s w = .install dev → dev = s.data.device_id ∧ s.data.stop = false) ∧
    s.data.completed ≤ 1 ∧ s.data.device_id = s.data.completed + 1 ∧
    ((∃ w, pcOf s w ≠ .gone) → ∃ e, (assembly 1).Enabled s e) ∧
    ((∀ w, pcOf s w = .gone) → s.data.completed = 1 ∧
      s.sem .SEM_NUT_SLOTS = 2 ∧ s.sem .SEM_SCREW_SLOTS = 1)) := by
  have hrun : (replay workers (init 1) deviceRun).map
      (fun s => (pcOf s .wrench1, pcOf s .wrench2, pcOf s .screwdriver)) =
      some (.gone, .gone, .gone) := by decide +kernel
  obtain ⟨s, hreplay, hpcs⟩ := Option.map_eq_some_iff.mp hrun
  have hreach : (assembly 1).Reachable s := (Run.of_replay hreplay).reachable (.init rfl)
  simp only [Prod.mk.injEq] at hpcs
  exact ⟨s, hreach, hpcs, devices (by decide) hreach⟩

end Assembly
