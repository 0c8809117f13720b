import OsLessons.Shower.Safety

/-! # Bounded overtaking

  While a client of sex `g` is registered, how many clients of the opposite
  sex can enter before sex `g` is woken? The answer is a potential
  (`overtakes`): what the opposite sex may still use up of its streak, plus
  one more streak if the next emptying can hand the shower back to it. Every
  entry of the opposite sex pays for itself, so the run spends at most the
  initial value, which is at most `2 * MAX_STREAK - 1`.
-/

namespace Shower

open Lts Census

/-! ### Streaks -/

/-- Counters are non-negative, and only the sex that has the shower has a streak. -/
structure Streaks (S : Shared) : Prop where
  wait_nonneg : ∀ g, 0 ≤ S.wait g
  streak_nonneg : ∀ g, 0 ≤ S.streak g
  own_streak : ∀ g, S.current_gender ≠ some g → S.streak g = 0

section laws
variable {ms δ : ℤ} {who : Gender} {S S' : Shared} {pc pc' : Pc} {k : Sem} {log : List Log}

theorem Move.streaks (h : Move ms who S pc (k, δ) S' pc' log) (hS : Streaks S) : Streaks S' := by
  obtain ⟨hwait, hstreak, hown⟩ := hS
  cases h with
  | refuse | register =>
    refine ⟨fun g => ?_, fun g => by simpa using hstreak g, fun g hg => ?_⟩
    · have := hwait g
      rw [register_wait]
      split <;> omega
    · simpa using hown g (by simpa using hg)
  | enter =>
    refine ⟨fun g => by simpa using hwait g, fun g => ?_, fun g hg => ?_⟩
    · have := hstreak g
      rw [enter_streak]
      split <;> omega
    · have : g ≠ who := by
        rintro rfl
        simp at hg
      simp [this]
  | leave =>
    exact ⟨fun g => by simpa using hwait g, fun g => by simpa using hstreak g,
      fun g hg => by simpa using hown g (by simpa using hg)⟩
  | wake g' =>
    refine ⟨fun g => ?_, fun g => by simp, fun g _ => by simp⟩
    have := hwait g
    rw [wake_locked_wait]
    split <;> omega
  | idle => exact ⟨fun g => by simpa using hwait g, fun g => by simp, fun g _ => by simp⟩
  | _ => exact ⟨hwait, hstreak, hown⟩

/-! ### The potential -/

/-- How many clients of the opposite sex can still enter before sex `g`,
    which is waiting, is woken. -/
def overtakes (ms : ℤ) (g : Gender) (S : Shared) : ℤ :=
  -- sex `g` has the shower: the other sex may get it for one streak
  if S.current_gender = some g then ms
  -- the next switch goes to `g`, so only the rest of this streak is left
  else if S.turn = g then max 0 (ms - S.streak g.other)
  -- the streak is used up, and the emptying wakes `g`
  else if ms ≤ S.streak g.other then 0
  -- the streak may stop one short of the limit and be followed by another one
  else (ms - 1 - S.streak g.other) + ms

theorem overtakes_nonneg (hms : 0 < ms) (g : Gender) (S : Shared) : 0 ≤ overtakes ms g S := by
  unfold overtakes
  split_ifs <;> omega

theorem overtakes_le (hms : 0 < ms) (hS : Streaks S) (g : Gender) :
    overtakes ms g S ≤ 2 * ms - 1 := by
  have := hS.streak_nonneg g.other
  unfold overtakes
  split_ifs <;> omega

/-- Clients of sex `g` that a step lets in. -/
def entriesOf (g : Gender) (log : List Log) : ℕ := log.count (.enter g)

/-- The `[SWITCH]` line of the wake function of sex `g`. -/
def Log.isSwitch (g : Gender) : Log → Bool
  | .switch cur _ _ => cur == g
  | _ => false

/-- A `WAIT` line of a client of sex `g`. -/
def Log.isWait (g : Gender) : Log → Bool
  | .wait who _ => who == g
  | _ => false

/-- Sex `g` is woken. -/
def Wakes (g : Gender) (log : List Log) : Prop := log.any (Log.isSwitch g) = true

/-- A client of sex `g` registers as waiting. -/
def Registers (g : Gender) (log : List Log) : Prop := log.any (Log.isWait g) = true

instance (g : Gender) (log : List Log) : Decidable (Wakes g log) :=
  inferInstanceAs (Decidable (_ = true))

instance (g : Gender) (log : List Log) : Decidable (Registers g log) :=
  inferInstanceAs (Decidable (_ = true))

/-- Registering makes `wait` positive. -/
theorem Move.wait_pos_of_registers (h : Move ms who S pc (k, δ) S' pc' log) (hS : Streaks S)
    {g : Gender} (hreg : Registers g log) : 0 < S'.wait g := by
  unfold Registers at hreg
  cases h <;> simp [Log.isWait] at hreg
  -- only the two registrations print a `WAIT` line
  case refuse | register =>
    have := hS.wait_nonneg g
    rw [register_wait, if_pos hreg.symm]
    omega

/-- Until sex `g` is woken it stays waiting, and an entry of the opposite sex
    uses up potential. -/
theorem Move.overtakes (h : Move ms who S pc (k, δ) S' pc' log) (hms : 0 < ms)
    (hS : Streaks S) {g : Gender} (hg : 0 < S.wait g) (hwake : ¬ Wakes g log) :
    0 < S'.wait g ∧
      Shower.overtakes ms g S' + entriesOf g.other log ≤ Shower.overtakes ms g S := by
  cases h with
  -- `register` only raises a `wait` counter
  | refuse | register =>
    refine ⟨?_, by simp [Shower.overtakes, entriesOf]⟩
    rw [register_wait]
    split <;> omega
  | enter ha =>
    refine ⟨by simpa using hg, ?_⟩
    obtain ⟨hcur, _, hfair⟩ := allow_iff.mp ha
    obtain rfl | rfl := Gender.eq_or_eq_other g who
    -- a client of sex `g` itself: the other sex has no streak
    · have hother := hS.own_streak who.other
      simp only [Shower.overtakes, entriesOf, enter_current_gender, ↓reduceIte]
      rcases hcur with hcur | hcur <;> simp only [hcur] at hother ⊢ <;> simp at hother ⊢
      rw [hother]
      split_ifs <;> omega
    -- a client of the opposite sex passed the fairness test
    · have hne : S.current_gender ≠ some g := by
        rcases hcur with hcur | hcur <;> simp [hcur]
      have hstreak : S.streak g.other < ms := by
        by_contra hle
        exact hfair ⟨by omega, by cases g <;> exact hg, by cases g <;> exact hne⟩
      simp only [Shower.overtakes, entriesOf, enter_current_gender, enter_turn, enter_streak,
        hne, ↓reduceIte, Option.some.injEq, Gender.other_ne]
      simp only [List.count_singleton_self]
      split_ifs <;> omega
  | leave =>
    exact ⟨by simpa using hg, by simp [Shower.overtakes, entriesOf]⟩
  | wake g' reason _ hd =>
    obtain rfl | rfl := Gender.eq_or_eq_other g g'
    · exact absurd (by simp [Wakes, Log.isSwitch]) hwake
    -- the shower is handed to the opposite sex: one more streak
    · refine ⟨by simpa using hg, ?_⟩
      have hboth := decide_wake_both hd (by cases g <;> exact hg)
      have hown := hS.own_streak g
      have hturn : g.other.other = g := by cases g <;> rfl
      simp only [Shower.overtakes, entriesOf, wake_locked_current_gender, wake_locked_turn,
        wake_locked_streak, hturn, Option.some.injEq, Gender.other_ne, ↓reduceIte] at hboth ⊢
      by_cases hcur : S.current_gender = some g
      · simp [hcur]
        omega
      · have hzero := hown hcur
        rw [hzero] at hboth
        obtain hbad | ⟨hlt, ht⟩ := hboth
        · omega
        · simp only [hcur, ↓reduceIte, ht, Gender.other_ne]
          simp
          split_ifs <;> omega
  -- the shower does not go idle while sex `g` waits
  | idle _ hd =>
    have := decide_wake_none hS.wait_nonneg hd g
    omega
  | _ => exact ⟨hg, by simp [entriesOf]⟩

end laws

/-! ### Runs -/

variable {C : Type*} [Fintype C] [DecidableEq C]

omit [Fintype C] in
theorem streaks_reachable {cfg : Config C} {s : State C} (h : (shower cfg).Reachable s) :
    Streaks s.S := by
  refine System.invariant (I := fun s => Streaks s.S) (fun s hs => ?_) (fun s e s' hi hs => ?_) h
  · obtain ⟨_, _, rfl⟩ := cmd_init_eq_some.mp hs
    exact ⟨fun g => by simp, fun g => by simp, fun g _ => by simp⟩
  · obtain ⟨c, log⟩ := e
    cases step_of_next hs with
    | fork => exact hi
    | die => exact hi
    | move _ hm => exact hm.streaks hi

/-- Number of entries of sex `g` during a run. -/
def numEntries (g : Gender) (es : List (Event C)) : ℤ :=
  (es.map fun e => (entriesOf g e.log : ℤ)).sum

/-- While sex `g` waits unwoken, the entries of the opposite sex are paid by
    the potential. -/
theorem overtakes_step {cfg : Config C} {ms : ℤ} {g : Gender}
    (hms : ∀ c, get_max_streak (cfg.env c) cfg.N = ms) {s s' : State C} {e : Event C}
    (hr : (shower cfg).Reachable s) (hg : 0 < s.S.wait g)
    (hs : (shower cfg).step s e s') (hwake : ¬ Wakes g e.log) :
    0 < s'.S.wait g ∧ overtakes ms g s'.S + entriesOf g.other e.log ≤ overtakes ms g s.S := by
  have hpos : 0 < ms := hms e.client ▸ get_max_streak_pos _ _
  have hsize := (inv_reachable hr).size
  obtain ⟨c, log⟩ := e
  cases step_of_next hs with
  | fork => exact ⟨hg, by simp [entriesOf]⟩
  | die => exact ⟨hg, by simp [entriesOf, die]⟩
  | move _ hm =>
    rw [hsize, hms] at hm
    exact hm.overtakes hpos (streaks_reachable hr) hg hwake

omit [Fintype C] in
/-- A registration leaves its sex waiting. -/
theorem registers_wait_pos {cfg : Config C} {g : Gender} {s s' : State C} {e : Event C}
    (hr : (shower cfg).Reachable s) (hs : (shower cfg).step s e s') (hreg : Registers g e.log) :
    0 < s'.S.wait g := by
  obtain ⟨c, log⟩ := e
  cases step_of_next hs with
  | fork => simp [Registers] at hreg
  | die => simp [Registers] at hreg
  | move _ hm => exact hm.wait_pos_of_registers (streaks_reachable hr) hreg

/-- **Bounded overtaking.** With one `MAX_STREAK` for all clients, between a
    step that registers a client of sex `g` and the next wake of sex `g` at
    most `2 * MAX_STREAK - 1` clients of the opposite sex enter. -/
theorem bounded_overtaking (cfg : Config C) (ms : ℤ)
    (hms : ∀ c, get_max_streak (cfg.env c) cfg.N = ms) (g : Gender)
    {s s₁ s₂ : State C} {e : Event C} {es : List (Event C)}
    (hr : (shower cfg).Reachable s) (hs : (shower cfg).step s e s₁) (hreg : Registers g e.log)
    (hrun : (shower cfg).Run s₁ es s₂) (hno : ∀ e' ∈ es, ¬ Wakes g e'.log) :
    numEntries g.other es ≤ 2 * ms - 1 := by
  have hpos : 0 < ms := hms e.client ▸ get_max_streak_pos _ _
  have hr₁ : (shower cfg).Reachable s₁ := hr.step hs
  have hwait := registers_wait_pos hr hs hreg
  -- the run's entries are paid for by the potential at its start
  have hpay := hrun.cost_le (fun s => (shower cfg).Reachable s ∧ 0 < s.S.wait g)
    (fun s => overtakes ms g s.S) (fun e => Wakes g e.log)
    (fun e => (entriesOf g.other e.log : ℤ))
    (fun s e s' hP hs hw => by
      obtain ⟨hg, hle⟩ := overtakes_step hms hP.1 hP.2 hs hw
      exact ⟨⟨hP.1.step hs, hg⟩, hle⟩)
    ⟨hr₁, hwait⟩ hno
  have hle := overtakes_le hpos (streaks_reachable hr₁) g
  have hnonneg := overtakes_nonneg hpos g s₂.S
  unfold numEntries
  omega

/-- Two men and a woman in a shower for two. -/
def trio : Config (Fin 3) where
  N := 2
  who := fun c => if c = 2 then .WOMEN else .MEN
  env := fun _ => none

/-- A man enters, the woman registers, and the other man enters before she is woken. -/
theorem bounded_overtaking_trio : ∃ s e s₁ es s₂, (shower trio).Reachable s ∧
    (shower trio).step s e s₁ ∧ Registers .WOMEN e.log ∧ (shower trio).Run s₁ es s₂ ∧
    1 ≤ numEntries .MEN es ∧ (numEntries .MEN es : ℤ) ≤ 2 * 4 - 1 := by
  have hrun : (replayInit trio ([1, 1, 1, 1] ++ [0, 0, 0, 0, 0, 0] ++ [2])).any (fun s =>
      (nextEvent trio s 2).any fun r =>
        (replay trio r.1 [2, 1, 1]).any fun q => decide (Registers .WOMEN r.2.log) &&
          decide (1 ≤ numEntries .MEN q.2) && decide (∀ e' ∈ q.2, ¬ Wakes .WOMEN e'.log)) = true := by
    decide +kernel
  obtain ⟨s, hs, hrun⟩ := (Option.any_eq_true _ _).mp hrun
  obtain ⟨⟨s₁, e⟩, he, hrun⟩ := (Option.any_eq_true _ _).mp hrun
  obtain ⟨⟨s₂, es⟩, hes, hprop⟩ := (Option.any_eq_true _ _).mp hrun
  simp only [Bool.and_eq_true, decide_eq_true_eq] at hprop
  have hreach := reachable_of_replayInit hs
  have hstep := step_of_nextEvent he
  have hrest := run_of_replay hes
  exact ⟨s, e, s₁, es, s₂, hreach, hstep, hprop.1.1, hrest, hprop.1.2,
    bounded_overtaking trio 4 (fun _ => rfl) .WOMEN hreach hstep hprop.1.1 hrest hprop.2⟩

end Shower
