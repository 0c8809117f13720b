import OsLessons.Shower.Tokens

/-! # The shower while nobody is inside

  `Settled` describes the shared state between the last `LEAVE` and the next
  `ENTER`. The streaks are zero, and if the shower has been handed to a sex,
  then a client of that sex is on its way or a wake-up for it is pending:
  with a zero streak its checks cannot fail.

  Together with the token balance this gives quiescence, so one round of
  `selftest` leaves nothing behind for the next one.
-/

namespace Shower

open Lts Census

/-! ### Laws of a move around an empty shower -/

section laws
variable {ms δ : ℤ} {who : Gender} {S S' : Shared} {pc pc' : Pc} {k : Sem} {log : List Log}

@[simp] theorem register_empty (who : Gender) (S : Shared) :
    (register who S).empty = S.empty := by
  cases who <;> rfl

/-- Somebody who has just entered is inside. -/
theorem enter_not_empty (who : Gender) (hpos : ∀ g, 0 ≤ S.in_ g) :
    (enter who S).empty ≠ true := by
  intro he
  have := (Shared.empty_iff _).mp he who
  have := hpos who
  simp only [enter_in_, ↓reduceIte] at *
  omega

/-- A client whose sex has the shower passes its check while the streaks are zero. -/
theorem allow_of_fresh (hms : 0 < ms) (he : S.empty = true)
    (hfresh : ∀ g, S.streak g = 0)
    (hcur : S.current_gender = none ∨ S.current_gender = some who) : allow ms who S = true := by
  refine allow_iff.mpr ⟨hcur, ?_, ?_⟩
  · rw [S.empty_iff.mp he]
  · rintro ⟨hstreak, _, _⟩
    rw [hfresh] at hstreak
    omega

/-- An idle shower keeps its streaks at zero. -/
theorem Move.idle_streak (h : Move ms who S pc (k, δ) S' pc' log)
    (hidle : S.current_gender = none → ∀ g, S.streak g = 0)
    (hcur : S'.current_gender = none) (g : Gender) : S'.streak g = 0 := by
  cases h with
  | refuse | register => simpa using hidle (by simpa using hcur) g
  | enter => simp at hcur
  | leave => simpa using hidle (by simpa using hcur) g
  -- both outcomes of the decision reset the streaks
  | wake => simp
  | idle => simp
  | _ => exact hidle hcur g

/-- Outside the decision of `leave_gender`, an empty shower has zero streaks. -/
theorem Move.fresh (h : Move ms who S pc (k, δ) S' pc' log) (hpos : ∀ g, 0 ≤ S.in_ g)
    (hfresh : pc ≠ .leaving → S.empty = true → ∀ g, S.streak g = 0)
    (hpc' : pc' ≠ .leaving) (he : S'.empty = true) (g : Gender) : S'.streak g = 0 := by
  cases h with
  | refuse | register => simpa using hfresh (by simp) (by simpa using he) g
  | enter => exact absurd he (enter_not_empty who hpos)
  | leave => exact absurd rfl hpc'
  | wake => simp
  | idle => simp
  -- the decision is skipped while somebody is inside
  | stay hne => simp [he] at hne
  | _ => exact hfresh (by simp) he g

/-- What a step of a client of sex `who` adds to what is underway for sex `g`. -/
def gain (who g : Gender) (k : Sem) (δ : ℤ) (pc pc' : Pc) : ℤ :=
  (if who = g ∧ pc'.isComing then 1 else 0) - (if who = g ∧ pc.isComing then 1 else 0)
    + (pc'.pending g - pc.pending g) + (if g.queue = k then δ else 0)

/-- A sex that has the empty shower keeps somebody on the way in, or a
    wake-up pending. `U` stands for what is underway before the move. -/
theorem Move.covered (h : Move ms who S pc (k, δ) S' pc' log) (hms : 0 < ms)
    (hpos : ∀ g, 0 ≤ S.in_ g)
    (hshort : ∀ g k, pc = .waking g k → toShort k = k)
    (hfresh : pc ≠ .leaving → S.empty = true → ∀ g, S.streak g = 0)
    {g : Gender} {U : ℤ} (hU : 0 ≤ U)
    (hcov : pc ≠ .leaving → S.empty = true → S.current_gender = some g → 0 < U)
    (hpc' : pc' ≠ .leaving) (he : S'.empty = true) (hcur : S'.current_gender = some g) :
    0 < U + gain who g k δ pc pc' := by
  unfold gain
  cases h with
  | refuse hno | deny hno =>
    -- a refused client is not of the sex that has the shower
    have he' : S.empty = true := by simpa using he
    have hcur' : S.current_gender = some g := by simpa using hcur
    have hne : who ≠ g := by
      rintro rfl
      have := allow_of_fresh hms he' (hfresh (by simp) he') (.inr hcur')
      simp [this] at hno
    have := hcov (by simp) he' hcur'
    simpa [hne, Pc.pending] using this
  | register =>
    have := hcov (by simp) (by simpa using he) (by simpa using hcur)
    simpa [Pc.isComing, Pc.pending] using this
  | enter => exact absurd he (enter_not_empty who hpos)
  | leave => exact absurd rfl hpc'
  -- the sex that is woken has at least one client waiting
  | wake g' reason _ hd =>
    obtain rfl : g' = g := by simpa using hcur
    have := decide_wake_wait hd
    simp only [Pc.pending, Pc.isComing, Gender.queue_ne_CAP, ↓reduceIte]
    simp
    omega
  | idle => simp at hcur
  | stay hne => simp [he] at hne
  -- tokens being posted become tokens in the queue
  | post g' n =>
    have := hcov (by simp) he hcur
    rw [hshort g' n rfl]
    by_cases hg : g' = g
    · subst hg
      simpa [Pc.isComing, Pc.pending] using this
    · simpa [Pc.isComing, Pc.pending, hg, Gender.queue_inj, Ne.symm hg] using this
  -- a token is consumed by a client, which then heads for its entry
  | dequeue =>
    have := hcov (by simp) he hcur
    by_cases hg : who = g
    · subst hg
      simpa [Pc.isComing, Pc.pending] using this
    · simpa [Pc.isComing, Pc.pending, hg, Gender.queue_inj, Ne.symm hg] using this
  | _ =>
    have := hcov (by simp) he hcur
    simpa [Pc.isComing, Pc.pending] using this

end laws

/-! ### The invariant -/

variable {C : Type*} [Fintype C]

/-- Tokens for sex `g`, posted or being posted, plus its clients on their way in. -/
def underway (cfg : Config C) (s : State C) (g : Gender) : ℤ :=
  s.sem g.queue + census (fun _ p => p.pending g) s.pc + census (comingWeight cfg g) s.pc

/-- Nobody is about to decide whom to wake. -/
def NoneLeaving (s : State C) : Prop := ∀ c, s.pc c ≠ .leaving

/-- The shared state of an idle or empty shower. -/
structure Settled (cfg : Config C) (s : State C) : Prop where
  idle : s.S.current_gender = none → ∀ g, s.S.streak g = 0
  fresh : NoneLeaving s → s.S.empty = true → ∀ g, s.S.streak g = 0
  covered : NoneLeaving s → s.S.empty = true → ∀ g, s.S.current_gender = some g →
    0 < underway cfg s g

theorem TokenInv.underway_nonneg {cfg : Config C} {s : State C} (h : TokenInv cfg s)
    (g : Gender) : 0 ≤ underway cfg s g := by
  have hpend := census_nonneg (w := fun (_ : C) (p : Pc) => p.pending g) (f := s.pc)
    (h.pending_nonneg g)
  have hcome := census_nonneg (w := comingWeight cfg g) (f := s.pc)
    (fun c => by unfold comingWeight; split <;> omega)
  unfold underway
  omega

theorem settled_init {cfg : Config C} {s : State C} (h : cmd_init cfg.N = some s) :
    Settled cfg s := by
  obtain ⟨_, _, rfl⟩ := cmd_init_eq_some.mp h
  exact ⟨fun _ g => by simp, fun _ _ g => by simp, fun _ _ g hcur => by simp at hcur⟩

section steps
variable [DecidableEq C]

omit [Fintype C] in
/-- Nobody was deciding before the step either, unless the mover was. -/
theorem noneLeaving_of_update {s : State C} {c : C} {q : Pc} (hc : s.pc c ≠ .leaving)
    (h : ∀ d, Function.update s.pc c q d ≠ .leaving) : NoneLeaving s := by
  intro d
  by_cases hd : d = c
  · exact hd ▸ hc
  · simpa [hd] using h d

theorem underway_fork (cfg : Config C) {s : State C} {c : C} (hpc : s.pc c = .notStarted)
    (g : Gender) :
    underway cfg s g ≤ underway cfg { s with pc := Function.update s.pc c .loop } g := by
  simp only [underway, census_update, hpc, comingWeight, Pc.pending, Pc.isComing]
  by_cases hg : cfg.who c = g <;> simp [hg]

theorem underway_moved {cfg : Config C} {s : State C} {c : C} {k : Sem} {v : ℕ} {δ : ℤ}
    {S' : Shared} {pc' : Pc} (hv : semop (s.sem k) δ = .ok v) (g : Gender) :
    underway cfg (s.moved c k v S' pc') g =
      underway cfg s g + gain (cfg.who c) g k δ (s.pc c) pc' := by
  have hsem := semop_ok hv
  simp only [underway, gain, census_moved, comingWeight]
  by_cases hk : g.queue = k
  · subst hk
    simp only [State.moved, Function.update_self, ↓reduceIte]
    omega
  · simp only [State.moved, Function.update_of_ne hk, hk, ↓reduceIte]
    omega

/-- Any step of the shower keeps `Settled`. -/
theorem settled_step {cfg : Config C} (few : FewClients cfg) {s s' : State C} {c : C}
    {log : List Log} (hinv : Inv cfg s) (htok : TokenInv cfg s) (hset : Settled cfg s)
    (h : Step cfg s c s' log) : Settled cfg s' := by
  cases h with
  | fork hpc =>
    have hnone : NoneLeaving { s with pc := Function.update s.pc c .loop } → NoneLeaving s :=
      noneLeaving_of_update (by simp [hpc])
    refine ⟨hset.idle, fun hl => hset.fresh (hnone hl), fun hl he g hcur => ?_⟩
    exact (hset.covered (hnone hl) he g hcur).trans_le (underway_fork cfg hpc g)
  | die k delta hop he => exact absurd he (htok.not_erange few hinv hop)
  | @move k delta v S' pc' _ hv hm =>
    have hpc' : NoneLeaving (s.moved c k v S' pc') → pc' ≠ .leaving := by
      intro hl
      simpa [State.moved] using hl c
    refine ⟨hm.idle_streak hset.idle, fun hl he => ?_, fun hl he g hcur => ?_⟩
    -- nobody decides after the step, so nobody else did before it
    · exact hm.fresh hinv.in_nonneg
        (fun hc => hset.fresh (noneLeaving_of_update hc hl)) (hpc' hl) he
    · rw [underway_moved hv]
      exact hm.covered (get_max_streak_pos _ _) hinv.in_nonneg (htok.toShort_eq few c)
        (fun hc => hset.fresh (noneLeaving_of_update hc hl)) (htok.underway_nonneg g)
        (fun hc he' => hset.covered (noneLeaving_of_update hc hl) he' g) (hpc' hl) he hcur

theorem settled_reachable {cfg : Config C} (few : FewClients cfg) {s : State C}
    (h : (shower cfg).Reachable s) : Settled cfg s :=
  System.invariant_of (J := fun s => Inv cfg s ∧ TokenInv cfg s) (I := Settled cfg)
    (fun _ hr => ⟨inv_reachable hr, tokenInv_reachable few hr⟩)
    (fun _ => settled_init)
    (fun _ _ _ hJ hi hs => settled_step few hJ.1 hJ.2 hi (step_of_next hs)) h

/-! ### Token accounting and quiescence -/

omit [DecidableEq C] in
/-- With `SEM_MUTEX` free nobody is between a wake decision and its `Vq_k`. -/
theorem Inv.pending_eq_zero {cfg : Config C} {s : State C} (h : Inv cfg s)
    (hfree : s.sem .MUTEX = 1) (g : Gender) :
    census (fun (_ : C) p => p.pending g) s.pc = 0 := by
  refine census_zero fun c => ?_
  cases hp : s.pc c <;> simp only [Pc.pending]
  have := h.mutex_eq_zero (c := c) (by rw [hp]; rfl)
  omega

/-- All clients started so far have finished. -/
def AllFinished (s : State C) : Prop := ∀ c, s.pc c = .notStarted ∨ s.pc c = .finished

omit [DecidableEq C] in
theorem census_allFinished {s : State C} (h : AllFinished s) (w : C → Pc → ℤ)
    (hw : ∀ c, w c .notStarted = 0 ∧ w c .finished = 0) : census w s.pc = 0 := by
  refine census_zero fun c => ?_
  rcases h c with hc | hc <;> rw [hc]
  · exact (hw c).1
  · exact (hw c).2

/-- When every started client has finished, the shower is as after `cmd_init`,
    up to `turn`. -/
theorem quiescent {cfg : Config C} (few : FewClients cfg) {s : State C}
    (h : (shower cfg).Reachable s) (hfin : AllFinished s) :
    ∃ s₀ : State C, cmd_init cfg.N = some s₀ ∧
      s.S = { s₀.S with turn := s.S.turn } ∧ s.sem = s₀.sem := by
  have hinv := inv_reachable h
  have htok := tokenInv_reachable few h
  have hset := settled_reachable few h
  have hzero := census_allFinished hfin
  have hin : ∀ g, s.S.in_ g = 0 := by
    intro g
    rw [hinv.inside g]
    exact hzero _ fun c => by simp [insideWeight, Pc.isInside]
  -- nobody is registered, so nothing is left in `wait` or in the queues
  have hbal : ∀ g, s.S.wait g = 0 ∧ s.sem g.queue = 0 := by
    intro g
    have hq := hzero (queuedWeight cfg g) fun c => by simp [queuedWeight, Pc.isQueued]
    have hp := hzero (fun _ p => p.pending g) fun c => by simp [Pc.pending]
    have := htok.tokens g
    have := htok.wait_nonneg g
    omega
  have hmutex := hinv.mutex
  rw [hzero _ fun c => by simp [Pc.semadj]] at hmutex
  have hcap := hinv.cap
  rw [hzero _ fun c => by simp [Pc.semadj]] at hcap
  have hnone : NoneLeaving s := by
    intro c hc
    rcases hfin c with h' | h' <;> simp [h'] at hc
  have hempty : s.S.empty = true := s.S.empty_iff.mpr hin
  -- a sex that had the shower would have somebody underway
  have hcur : s.S.current_gender = none := by
    cases hc : s.S.current_gender with
    | none => rfl
    | some g =>
      have hpos := hset.covered hnone hempty g hc
      have hp := hzero (fun _ p => p.pending g) fun c => by simp [Pc.pending]
      have hcome := hzero (comingWeight cfg g) fun c => by simp [comingWeight, Pc.isComing]
      rw [underway, hp, hcome, (hbal g).2] at hpos
      simp at hpos
  have hstreak := hset.fresh hnone hempty
  refine ⟨initState cfg.N, cmd_init_eq_some.mpr ⟨by omega, hinv.limit, rfl⟩, ?_, ?_⟩
  · exact Shared.ext (hin .MEN) (hin .WOMEN) (hbal .MEN).1 (hbal .WOMEN).1 hcur
      (hstreak .MEN) (hstreak .WOMEN) rfl hinv.size
  · funext k
    cases k with
    | MUTEX => simp only [initState]; omega
    | CAP => simp only [initState]; omega
    | MQ => exact (hbal .MEN).2
    | WQ => exact (hbal .WOMEN).2

/-- **Token accounting and quiescence.** With `SEM_MUTEX` free, the registered
    clients of a sex that have not passed their `Pq` are its `wait` counter
    plus its tokens, and `SEM_CAP` plus the slots held is `N`. When every
    started client has finished, the shower is as after `cmd_init` up to `turn`. -/
theorem token_accounting (cfg : Config C) (few : FewClients cfg) (s : State C)
    (h : (shower cfg).Reachable s) :
    (s.sem .MUTEX = 1 →
      (numQueued cfg s .MEN = s.S.men_wait + s.sem .MQ ∧
        numQueued cfg s .WOMEN = s.S.women_wait + s.sem .WQ) ∧
      (s.sem .CAP : ℤ) + numSlots s = cfg.N) ∧
    (AllFinished s → ∃ s₀ : State C, cmd_init cfg.N = some s₀ ∧
      s.S = { s₀.S with turn := s.S.turn } ∧ s.sem = s₀.sem) := by
  have hinv := inv_reachable h
  have htok := tokenInv_reachable few h
  refine ⟨fun hfree => ⟨?_, ?_⟩, quiescent few h⟩
  · have hbal : ∀ g, (numQueued cfg s g : ℤ) = s.S.wait g + s.sem g.queue := by
      intro g
      have := htok.tokens g
      rw [census_queuedWeight, hinv.pending_eq_zero hfree g] at this
      omega
    exact ⟨hbal .MEN, hbal .WOMEN⟩
  · rw [← census_slots]
    exact hinv.cap

end steps

theorem couple_few : FewClients couple := by
  intro g
  cases g <;> decide

/-- While the man is inside, the woman has registered and reached her `Pq`. -/
theorem token_accounting_couple : ∃ s, (shower couple).Reachable s ∧
    numQueued couple s .WOMEN = 1 ∧ (s.sem .CAP : ℤ) + numSlots s = 2 := by
  have hrun : (replayInit couple ([0, 0, 0, 0, 0, 0] ++ [1, 1, 1])).any (fun s =>
      s.sem .MUTEX == 1 && s.S.women_wait == 1 && s.sem .WQ == 0) = true := by
    decide +kernel
  obtain ⟨s, hs, hprop⟩ := (Option.any_eq_true _ _).mp hrun
  simp only [Bool.and_eq_true, beq_iff_eq] at hprop
  obtain ⟨⟨hmutex, hwait⟩, htok⟩ := hprop
  have hreach := reachable_of_replayInit hs
  obtain ⟨⟨_, hwomen⟩, hcap⟩ := (token_accounting couple couple_few s hreach).1 hmutex
  refine ⟨s, hreach, ?_, hcap⟩
  omega

end Shower
