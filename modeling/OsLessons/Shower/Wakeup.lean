import OsLessons.Shower.Quiescence

/-! # Lost wake-ups

  A client whose second check fails releases `SEM_MUTEX` and its slot before
  it registers. If the shower becomes idle in between, the registration comes
  too late: an idle shower has nobody who would wake the client.
  `lost_wakeup` replays such a run.

  `no_lost_wakeup` is the converse. As long as no client registers late in an
  idle shower without somebody on the way in (`KeepsWaker`), some started
  client can always move until all of them have finished.
-/

namespace Shower

open Lts Census

/-! ### Waiting in an idle shower -/

/-- A move into an idle shower where somebody of sex `g` waits is a late
    registration, or it left the waiting client and what is underway alone. -/
theorem Move.waits_idle {ms δ : ℤ} {who : Gender} {S S' : Shared} {pc pc' : Pc} {k : Sem}
    {log : List Log} (h : Move ms who S pc (k, δ) S' pc' log) (hms : 0 < ms)
    (hwait : ∀ g, 0 ≤ S.wait g)
    (hshort : ∀ g k, pc = .waking g k → toShort k = k)
    (hin : pc = .inside → S.current_gender ≠ none)
    (hempty : S.current_gender = none → S.empty = true)
    (hidle : S.current_gender = none → ∀ g, S.streak g = 0)
    (hcur : S'.current_gender = none) {g : Gender} (hg : 0 < S'.wait g) :
    S.current_gender = none ∧ (pc = .register ∨ 0 < S.wait g) ∧
      ∀ g', gain who g' k δ pc pc' = 0 := by
  cases h with
  | refuse hno | deny hno =>
    -- an idle shower refuses nobody
    have hcur' : S.current_gender = none := by simpa using hcur
    have hyes : allow ms who S = true :=
      allow_of_fresh hms (hempty hcur') (hidle hcur') (.inl hcur')
    simp [hyes] at hno
  | register => exact ⟨by simpa using hcur, .inl rfl, fun g' => by simp [gain, Pc.isComing, Pc.pending]⟩
  | enter => simp at hcur
  | leave => exact absurd (by simpa using hcur) (hin rfl)
  | wake => simp at hcur
  -- the shower goes idle only when neither sex waits
  | idle _ hd =>
    have := decide_wake_none hwait hd g
    simp only [go_idle_wait] at hg
    omega
  | stay hne => simp [hempty hcur] at hne
  -- posting and taking a token move clients within what is underway
  | post g' n =>
    refine ⟨hcur, .inr hg, fun g'' => ?_⟩
    rw [hshort g' n rfl]
    by_cases h' : g' = g''
    · subst h'
      simp [gain, Pc.isComing, Pc.pending]
    · simp [gain, Pc.isComing, Pc.pending, Gender.queue_inj, h', Ne.symm h']
  | dequeue =>
    refine ⟨hcur, .inr hg, fun g' => ?_⟩
    by_cases h' : who = g'
    · subst h'
      simp [gain, Pc.isComing, Pc.pending]
    · simp [gain, Pc.isComing, Pc.pending, Gender.queue_inj, h', Ne.symm h']
  | _ => exact ⟨hcur, .inr hg, fun g' => by simp [gain, Pc.isComing, Pc.pending]⟩

variable {C : Type*}

/-- The client will enter if it is let run: it is on its way in, or a
    wake-up for it is posted. -/
def OnItsWay (cfg : Config C) (s : State C) (c : C) : Prop :=
  (s.pc c).isComing = true ∨ (s.pc c = .queue ∧ 0 < s.sem (cfg.who c).queue)

/-- Condition on a step: a client that registers on the recheck path while the
    shower is idle does so with somebody still on the way in. -/
def KeepsWaker (cfg : Config C) (s : State C) (e : Event C) : Prop :=
  s.pc e.client = .register → s.S.current_gender = none → ∃ c, OnItsWay cfg s c

variable [Fintype C]

/-- Whoever waits in an idle shower has somebody underway. -/
def Tended (cfg : Config C) (s : State C) : Prop :=
  s.S.current_gender = none → ∀ g, 0 < s.S.wait g →
    0 < underway cfg s .MEN + underway cfg s .WOMEN

theorem Inv.empty_of_idle {cfg : Config C} {s : State C} (h : Inv cfg s)
    (hcur : s.S.current_gender = none) : s.S.empty = true := by
  refine s.S.empty_iff.mpr fun g => ?_
  have := h.in_nonneg g
  by_contra hne
  have := h.coherent g (by omega)
  simp [hcur] at this

theorem Inv.inside_pos {cfg : Config C} {s : State C} (h : Inv cfg s) {c : C}
    (hc : (s.pc c).isInside = true) : 0 < s.S.in_ (cfg.who c) := by
  have hle := le_census (w := insideWeight cfg (cfg.who c)) (f := s.pc)
    (fun d => by unfold insideWeight; split <;> omega) c
  rw [← h.inside] at hle
  simp only [insideWeight, hc, and_self, ↓reduceIte] at hle
  omega

theorem TokenInv.underway_pos {cfg : Config C} {s : State C} (h : TokenInv cfg s) {c : C}
    (hc : OnItsWay cfg s c) : 0 < underway cfg s (cfg.who c) := by
  have hpend := census_nonneg (w := fun (_ : C) (p : Pc) => p.pending (cfg.who c)) (f := s.pc)
    (h.pending_nonneg _)
  have hweight : ∀ d, 0 ≤ comingWeight cfg (cfg.who c) d (s.pc d) := by
    intro d
    unfold comingWeight
    split <;> omega
  unfold underway
  rcases hc with hcome | ⟨_, htok⟩
  · have hle := le_census hweight c
    simp only [comingWeight, hcome, and_self, ↓reduceIte] at hle
    omega
  · have := census_nonneg hweight
    omega

theorem tended_init {cfg : Config C} {s : State C} (h : cmd_init cfg.N = some s) :
    Tended cfg s := by
  obtain ⟨_, _, rfl⟩ := cmd_init_eq_some.mp h
  intro _ g hg
  simp at hg

section steps
variable [DecidableEq C]

theorem tended_step {cfg : Config C} (few : FewClients cfg) {s s' : State C} {c : C}
    {log : List Log} (hinv : Inv cfg s) (htok : TokenInv cfg s) (hset : Settled cfg s)
    (htend : Tended cfg s) (hguard : KeepsWaker cfg s ⟨c, log⟩) (h : Step cfg s c s' log) :
    Tended cfg s' := by
  cases h with
  | fork hpc =>
    intro hcur g hg
    have := htend hcur g hg
    have := underway_fork cfg hpc .MEN
    have := underway_fork cfg hpc .WOMEN
    omega
  | die k delta hop he => exact absurd he (htok.not_erange few hinv hop)
  | @move k delta v S' pc' _ hv hm =>
    intro hcur g hg
    have hin : s.pc c = .inside → s.S.current_gender ≠ none := by
      intro hc hnone
      have := hinv.coherent _ (hinv.inside_pos (c := c) (by rw [hc]; rfl))
      simp [hnone] at this
    obtain ⟨hnone, hwhy, hgain⟩ := hm.waits_idle (get_max_streak_pos _ _) htok.wait_nonneg
      (htok.toShort_eq few c) hin hinv.empty_of_idle hset.idle hcur hg
    rw [underway_moved hv, underway_moved hv, hgain, hgain]
    have hmen := htok.underway_nonneg .MEN
    have hwomen := htok.underway_nonneg .WOMEN
    -- a late registration is covered by `KeepsWaker`, other moves by the hypothesis
    rcases hwhy with hreg | hpos
    · obtain ⟨d, hd⟩ := hguard hreg hnone
      have := htok.underway_pos hd
      cases hw : cfg.who d <;> rw [hw] at this <;> omega
    · have := htend hnone g hpos
      omega

/-! ### Progress -/

/-- The client has been forked and has not ended. -/
def Unfinished (s : State C) (c : C) : Prop :=
  s.pc c ≠ .notStarted ∧ s.pc c ≠ .finished ∧ s.pc c ≠ .died

/-- The client has an enabled step. -/
def CanStep (cfg : Config C) (s : State C) (c : C) : Prop := (next cfg s c).isSome = true

instance (cfg : Config C) (s : State C) (c : C) : Decidable (CanStep cfg s c) :=
  inferInstanceAs (Decidable (_ = true))

omit [Fintype C] in
/-- A client that cannot step is blocked in its semaphore operation. -/
theorem blocks_of_not_canStep {cfg : Config C} {s : State C} {c : C} {k : Sem} {delta : ℤ}
    (hstart : s.pc c ≠ .notStarted) (hop : (s.pc c).op (cfg.who c) = some (k, delta))
    (h : ¬ CanStep cfg s c) : semop (s.sem k) delta = .blocks := by
  unfold CanStep next at h
  simp only [hstart, ↓reduceIte, hop] at h
  cases hs : semop (s.sem k) delta with
  | blocks => rfl
  | erange => simp [hs] at h
  | ok v => simp [hs] at h

/-- Where clients can be blocked when none of them can move: at the start, at
    the end, or in `Pq` with no token for their sex. -/
theorem stuck_pc {cfg : Config C} (few : FewClients cfg) (hN : 1 ≤ cfg.N) {s : State C}
    (hinv : Inv cfg s) (htok : TokenInv cfg s)
    (hstuck : ∀ c, Unfinished s c → ¬ CanStep cfg s c) (c : C) :
    s.pc c = .notStarted ∨ s.pc c = .finished ∨
      (s.pc c = .queue ∧ s.sem (cfg.who c).queue = 0) := by
  have hblocks : ∀ c k delta, Unfinished s c → (s.pc c).op (cfg.who c) = some (k, delta) →
      semop (s.sem k) delta = .blocks :=
    fun c k delta hc hop => blocks_of_not_canStep hc.1 hop (hstuck c hc)
  -- a client inside its mutex section performs an operation that never blocks
  have hfree : ∀ d, (s.pc d).semadj .MUTEX = 0 := by
    intro d
    cases hp : s.pc d <;> try rfl
    case waking g n =>
      obtain ⟨hn, _⟩ := htok.post_le few hp
      refine absurd (hblocks d _ _ ⟨by simp [hp], by simp [hp], by simp [hp]⟩ (by rw [hp]; rfl)) ?_
      rw [htok.toShort_eq few d g n hp]
      exact semop_up_not_blocks hn
    all_goals
      exact absurd (hblocks d _ _ ⟨by simp [hp], by simp [hp], by simp [hp]⟩ (by rw [hp]; rfl))
        (semop_up_not_blocks (by omega))
  have hmutex : s.sem .MUTEX = 1 := by
    have := hinv.mutex
    rw [census_zero (fun d => by simp [hfree d])] at this
    omega
  have hnoP : ∀ d, Unfinished s d → (s.pc d).op (cfg.who d) ≠ some (.MUTEX, -1) :=
    fun d hd hop => by
      have := semop_down_blocks.mp (hblocks d _ _ hd hop)
      omega
  -- so nobody holds a slot, and `P(SEM_CAP)` does not block either
  have hslot : ∀ d, (s.pc d).semadj .CAP = 0 := by
    intro d
    have hd := hfree d
    cases hp : s.pc d <;> rw [hp] at hd <;> simp [Pc.semadj] at hd ⊢
    case giveBack =>
      exact absurd (hblocks d _ _ ⟨by simp [hp], by simp [hp], by simp [hp]⟩ (by rw [hp]; rfl))
        (semop_up_not_blocks (by omega))
    all_goals exact hnoP d ⟨by simp [hp], by simp [hp], by simp [hp]⟩ (by rw [hp]; rfl)
  have hcap : s.sem .CAP ≠ 0 := by
    have := hinv.cap
    rw [census_zero (fun d => by simp [hslot d])] at this
    omega
  have hc := hfree c
  have hc' := hslot c
  have hdied := htok.alive c
  cases hp : s.pc c <;> rw [hp] at hc hc' hdied <;> simp [Pc.semadj] at hc hc' hdied ⊢
  case queue =>
    exact semop_down_blocks.mp
      (hblocks c _ _ ⟨by simp [hp], by simp [hp], by simp [hp]⟩ (by rw [hp]; rfl))
  case capWait =>
    exact hcap (semop_down_blocks.mp
      (hblocks c _ _ ⟨by simp [hp], by simp [hp], by simp [hp]⟩ (by rw [hp]; rfl)))
  all_goals exact hnoP c ⟨by simp [hp], by simp [hp], by simp [hp]⟩ (by rw [hp]; rfl)

/-- What every state of a run whose steps meet `KeepsWaker` satisfies. -/
theorem tended_reachable {cfg : Config C} (few : FewClients cfg) {s : State C}
    (h : ((shower cfg).restrict (KeepsWaker cfg)).Reachable s) : Tended cfg s :=
  System.invariant_of (J := (shower cfg).Reachable) (I := Tended cfg)
    (fun _ hr => hr.of_restrict) (fun _ => tended_init)
    (fun _ _ _ hr ht hs =>
      tended_step few (inv_reachable hr) (tokenInv_reachable few hr) (settled_reachable few hr)
        ht hs.1 (step_of_next hs.2)) h

/-- **No lost wake-up.** In every run whose steps meet `KeepsWaker`, as long as
    some started client has not finished, some started client can move. -/
theorem no_lost_wakeup (cfg : Config C) (few : FewClients cfg) (hN : 1 ≤ cfg.N) (s : State C)
    (h : ((shower cfg).restrict (KeepsWaker cfg)).Reachable s) (c : C)
    (hc : Unfinished s c) : ∃ d, Unfinished s d ∧ CanStep cfg s d := by
  by_contra hno
  have hstuck : ∀ d, Unfinished s d → ¬ CanStep cfg s d := fun d hd hstep => hno ⟨d, hd, hstep⟩
  have hinv := inv_reachable h.of_restrict
  have htok := tokenInv_reachable few h.of_restrict
  have hset := settled_reachable few h.of_restrict
  have hpcs := stuck_pc few hN hinv htok hstuck
  have hzero : ∀ w : C → Pc → ℤ,
      (∀ d, w d .notStarted = 0 ∧ w d .finished = 0 ∧ w d .queue = 0) → census w s.pc = 0 :=
    fun w hw => census_zero fun d => by
      obtain ⟨h₁, h₂, h₃⟩ := hw d
      rcases hpcs d with hd | hd | ⟨hd, _⟩ <;> simp [hd, h₁, h₂, h₃]
  have hpend : ∀ g, census (fun (_ : C) p => p.pending g) s.pc = 0 := fun g =>
    hzero _ fun d => by simp [Pc.pending]
  -- a token would let one of the blocked clients of its sex move
  have hnoTok : ∀ g : Gender, s.sem g.queue = 0 := by
    intro g
    by_contra hne
    have htokens := htok.tokens g
    rw [hpend g] at htokens
    have := htok.wait_nonneg g
    obtain ⟨d, hd⟩ := exists_of_census_pos (w := queuedWeight cfg g) (f := s.pc) (by omega)
    have hsex : cfg.who d = g ∧ (s.pc d).isQueued = true := by
      by_contra hq
      simp [queuedWeight, hq] at hd
    rcases hpcs d with h' | h' | ⟨_, h'⟩
    · simp [h', Pc.isQueued] at hsex
    · simp [h', Pc.isQueued] at hsex
    · exact hne (hsex.1 ▸ h')
  -- with no token, nobody heading in and nothing to post, nothing is underway
  have hunder : ∀ g, underway cfg s g = 0 := by
    intro g
    have hcome := hzero (comingWeight cfg g) fun d => by simp [comingWeight, Pc.isComing]
    simp [underway, hpend g, hcome, hnoTok g]
  have hempty : s.S.empty = true := s.S.empty_iff.mpr fun g => by
    rw [hinv.inside g]
    exact hzero _ fun d => by simp [insideWeight, Pc.isInside]
  have hnone : NoneLeaving s := by
    intro d hd
    rcases hpcs d with h' | h' | ⟨h', _⟩ <;> simp [h'] at hd
  -- the given client waits in `Pq`, counted in `wait`
  have hqueue : s.pc c = .queue := by
    rcases hpcs c with h' | h' | ⟨h', _⟩
    · exact absurd h' hc.1
    · exact absurd h' hc.2.1
    · exact h'
  have hwait : 0 < s.S.wait (cfg.who c) := by
    have hle := le_census (w := queuedWeight cfg (cfg.who c)) (f := s.pc)
      (fun d => by unfold queuedWeight; split <;> omega) c
    simp only [queuedWeight, hqueue, Pc.isQueued, and_self, ↓reduceIte] at hle
    have htokens := htok.tokens (cfg.who c)
    rw [hpend, hnoTok] at htokens
    omega
  cases hcur : s.S.current_gender with
  -- an idle shower tends whoever waits in it
  | none =>
    have := tended_reachable few h hcur _ hwait
    simp [hunder] at this
  -- a shower handed to a sex has somebody of that sex underway
  | some g =>
    have := hset.covered hnone hempty g hcur
    simp [hunder] at this

end steps

/-! ### A man and a woman -/

/-- `KeepsWaker`, evaluated. -/
def keepsWaker (s : State (Fin 2)) (e : Event (Fin 2)) : Bool :=
  s.pc e.client != .register || s.S.current_gender != none ||
    decide (∃ c, (s.pc c).isComing = true ∨ (s.pc c = .queue ∧ 0 < s.sem (couple.who c).queue))

theorem keepsWaker_iff (s : State (Fin 2)) (e : Event (Fin 2)) :
    keepsWaker s e = true ↔ KeepsWaker couple s e := by
  simp only [keepsWaker, KeepsWaker, OnItsWay, Bool.or_eq_true, bne_iff_ne, ne_eq,
    decide_eq_true_eq]
  grind

/-- While the man is inside, the woman blocks in `Pq`, and he can move. -/
theorem no_lost_wakeup_couple : ∃ s, ((shower couple).restrict (KeepsWaker couple)).Reachable s ∧
    s.pc 0 = .inside ∧ s.pc 1 = .queue ∧ ∃ d, Unfinished s d ∧ CanStep couple s d := by
  have hrun : ((cmd_init couple.N).bind fun s₀ => System.replayIf (nextEvent couple) keepsWaker s₀
      ([0, 0, 0, 0, 0, 0] ++ [1, 1, 1])).any (fun s => s.pc 0 == .inside && s.pc 1 == .queue) =
      true := by
    decide +kernel
  obtain ⟨s, hs, hprop⟩ := (Option.any_eq_true _ _).mp hrun
  obtain ⟨s₀, h₀, hs⟩ := Option.bind_eq_some_iff.mp hs
  have hreach : ((shower couple).restrict (KeepsWaker couple)).Reachable s :=
    System.Reachable.of_replayIf (fun _ _ _ _ => step_of_nextEvent)
      (fun s e => (keepsWaker_iff s e).mp) (.init h₀) hs
  simp only [Bool.and_eq_true, beq_iff_eq] at hprop
  have hwaits : Unfinished s 1 := by simp [Unfinished, hprop.2]
  exact ⟨s, hreach, hprop.1, hprop.2,
    no_lost_wakeup couple couple_few (by decide) s hreach 1 hwaits⟩

/-- The woman takes a slot, the man enters, her recheck fails, the man leaves
    an idle shower, she registers: a run in which she waits for a wake-up that
    nobody will send. Every client has been started, the man has finished, and
    nobody can move. -/
theorem lost_wakeup : ∃ s, (shower couple).Reachable s ∧ s.S.empty = true ∧
    s.pc 0 = .finished ∧ s.pc 1 = .queue ∧ s.sem .WQ = 0 ∧ ∀ c, ¬ CanStep couple s c := by
  have hrun : (replayInit couple ([0, 1] ++ [1, 1, 1] ++ [0, 0, 0, 0, 0] ++ [1, 1, 1] ++
      [0, 0, 0] ++ [1, 1])).any (fun s =>
      s.S.empty && s.pc 0 == .finished && s.pc 1 == .queue && s.sem .WQ == 0 &&
        decide (∀ c, ¬ CanStep couple s c)) = true := by
    decide +kernel
  obtain ⟨s, hs, hprop⟩ := (Option.any_eq_true _ _).mp hrun
  simp only [Bool.and_eq_true, beq_iff_eq, decide_eq_true_eq] at hprop
  obtain ⟨⟨⟨⟨hempty, hman⟩, hwoman⟩, htok⟩, hstuck⟩ := hprop
  exact ⟨s, reachable_of_replayInit hs, hempty, hman, hwoman, htok, hstuck⟩

end Shower
