import OsLessons.Shower.Overtaking

/-! # Individual waiting times

  `watched cfg c` runs the shower next to an observer of client `c`. From the
  step in which `c` first registers until the step in which it enters, the
  observer counts the clients of the opposite sex that enter (`Watch.count`).

  - `individual_overtaking`: if the shower is never emptied while `c` has been
    called and has not entered yet (`KeepsTurn`), the count stays within
    `2 * MAX_STREAK - 1`.
  - `no_individual_bound`: without that condition there is no bound. A woken
    client has to pass the checks again. Others of its sex may enter and empty
    the shower first, and the shower goes back to the opposite sex: in
    `crowd` this happens to one woman round after round.
-/

namespace Shower

open Lts Census

/-! ### Watching one client -/

/-- What the observer of a client knows. -/
inductive Watch where
  /-- the client has not registered yet -/
  | away
  /-- it has registered, and its sex has not been woken since -/
  | waiting (n : ℕ)
  /-- its sex has been woken since it first registered -/
  | called (n : ℕ)
  /-- it has entered -/
  | entered (n : ℕ)
  deriving DecidableEq, Repr

namespace Watch

/-- Entries of the opposite sex since the client first registered. -/
def count : Watch → ℕ
  | .away => 0
  | .waiting n | .called n | .entered n => n

/-- The client has been woken and is not inside yet. -/
def isCalled : Watch → Bool
  | .called _ => true
  | _ => false

end Watch

variable {C : Type*} [DecidableEq C]

/-- The observer of client `c` sees an event. -/
def watch (cfg : Config C) (c : C) (w : Watch) (e : Event C) : Watch :=
  match w with
  | .away =>
      -- counting starts with the first `WAIT` line of `c`
      if e.client = c ∧ Registers (cfg.who c) e.log then .waiting 0 else .away
  | .waiting n =>
      if e.client = c ∧ 0 < entriesOf (cfg.who c) e.log then .entered n
      -- a wake of the sex of `c`, whether or not it lets `c` in
      else if Wakes (cfg.who c) e.log then .called (n + entriesOf (cfg.who c).other e.log)
      else .waiting (n + entriesOf (cfg.who c).other e.log)
  | .called n =>
      if e.client = c ∧ 0 < entriesOf (cfg.who c) e.log then .entered n
      else .called (n + entriesOf (cfg.who c).other e.log)
  | .entered n => .entered n

/-- The shower with an observer of client `c`. -/
def watched (cfg : Config C) (c : C) : System (State C × Watch) (Event C) where
  init x := (shower cfg).init x.1 ∧ x.2 = .away
  step x e x' := (shower cfg).step x.1 e x'.1 ∧ x'.2 = watch cfg c x.2 e

theorem shower_reachable_of_watched {cfg : Config C} {c : C} {x : State C × Watch}
    (h : (watched cfg c).Reachable x) : (shower cfg).Reachable x.1 := by
  induction h with
  | init hs => exact .init hs.1
  | step _ hs ih => exact ih.step hs.1

/-- A run of the shower carries the observer along. -/
theorem run_watched {cfg : Config C} {s s' : State C} {es : List (Event C)}
    (h : (shower cfg).Run s es s') (c : C) (w : Watch) :
    (watched cfg c).Run (s, w) es (s', es.foldl (watch cfg c) w) := by
  induction h generalizing w with
  | nil s => exact .nil _
  | cons hstep _ ih => exact .cons ⟨hstep, rfl⟩ (ih _)

/-! ### A client that keeps its turn -/

/-- Condition on a step: nobody empties the shower while the watched client
    has been called and has not entered. -/
def KeepsTurn (x : State C × Watch) (e : Event C) : Prop :=
  x.2.isCalled = true → ¬ (x.1.pc e.client = .leaving ∧ x.1.S.empty = true)

/-- A move that does not empty the shower keeps it with sex `g`: only clients
    of that sex enter. -/
theorem Move.keeps_sex {ms δ : ℤ} {who : Gender} {S S' : Shared} {pc pc' : Pc} {k : Sem}
    {log : List Log} (h : Move ms who S pc (k, δ) S' pc' log)
    (hturn : ¬ (pc = .leaving ∧ S.empty = true)) {g : Gender}
    (hg : S.current_gender = some g) :
    S'.current_gender = some g ∧ entriesOf g.other log = 0 := by
  cases h with
  | enter ha =>
    obtain ⟨hcur, _⟩ := allow_iff.mp ha
    obtain rfl : who = g := by
      rcases hcur with hcur | hcur <;> rw [hg] at hcur <;> simp at hcur
      exact hcur.symm
    simp [entriesOf]
  -- these two are the branches of a client that empties the shower
  | wake _ _ he => exact absurd ⟨rfl, he⟩ hturn
  | idle he => exact absurd ⟨rfl, he⟩ hturn
  | _ => simpa [entriesOf, List.count_singleton] using hg

/-- A wake hands the shower to the woken sex, and nobody enters in that step. -/
theorem Move.wakes_sex {ms δ : ℤ} {who : Gender} {S S' : Shared} {pc pc' : Pc} {k : Sem}
    {log : List Log} (h : Move ms who S pc (k, δ) S' pc' log) {g : Gender}
    (hwake : Wakes g log) : S'.current_gender = some g ∧ ∀ g', entriesOf g' log = 0 := by
  unfold Wakes at hwake
  cases h <;> simp [Log.isSwitch] at hwake
  case wake => simp [hwake, entriesOf]

theorem wakes_current {cfg : Config C} {g : Gender} {s s' : State C} {e : Event C}
    (hs : (shower cfg).step s e s') (hwake : Wakes g e.log) :
    s'.S.current_gender = some g ∧ ∀ g', entriesOf g' e.log = 0 := by
  obtain ⟨c, log⟩ := e
  cases step_of_next hs with
  | fork => simp [Wakes] at hwake
  | die => simp [Wakes] at hwake
  | move _ hm => exact hm.wakes_sex hwake

theorem keeps_current {cfg : Config C} {g : Gender} {s s' : State C} {e : Event C}
    (hs : (shower cfg).step s e s')
    (hturn : ¬ (s.pc e.client = .leaving ∧ s.S.empty = true))
    (hg : s.S.current_gender = some g) :
    s'.S.current_gender = some g ∧ entriesOf g.other e.log = 0 := by
  obtain ⟨c, log⟩ := e
  cases step_of_next hs with
  | fork => exact ⟨hg, by simp [entriesOf]⟩
  | die => exact ⟨hg, by simp [entriesOf]⟩
  | move _ hm => exact hm.keeps_sex hturn hg

/-- What the observer's count is paid by. -/
def WatchInv (ms : ℤ) (g : Gender) (S : Shared) : Watch → Prop
  | .away => True
  | .waiting n => 0 < S.wait g ∧ n + overtakes ms g S ≤ 2 * ms - 1
  | .called n => S.current_gender = some g ∧ n ≤ 2 * ms - 1
  | .entered n => n ≤ 2 * ms - 1

variable [Fintype C]

theorem watchInv_step {cfg : Config C} {ms : ℤ}
    (hms : ∀ c, get_max_streak (cfg.env c) cfg.N = ms) {c : C} {s s' : State C} {w : Watch}
    {e : Event C} (hr : (shower cfg).Reachable s) (hinv : WatchInv ms (cfg.who c) s.S w)
    (hkeep : KeepsTurn (s, w) e) (hstep : (shower cfg).step s e s') :
    WatchInv ms (cfg.who c) s'.S (watch cfg c w e) := by
  have hpos : 0 < ms := hms c ▸ get_max_streak_pos _ _
  have hstreaks' := streaks_reachable (hr.step hstep)
  have hnn := overtakes_nonneg hpos (cfg.who c) s.S
  cases w with
  -- the potential starts within its bound when `c` registers
  | away =>
    simp only [watch]
    split
    · next hreg =>
      have hle := overtakes_le hpos hstreaks' (cfg.who c)
      refine ⟨?_, by simpa using hle⟩
      exact registers_wait_pos hr hstep hreg.2
    · trivial
  -- until the wake, entries of the opposite sex are paid by the potential
  | waiting n =>
    obtain ⟨hwait, hpay⟩ := hinv
    simp only [watch]
    split_ifs with henter hwake
    · simp only [WatchInv]
      omega
    · obtain ⟨hcur, hno⟩ := wakes_current hstep hwake
      refine ⟨hcur, ?_⟩
      rw [hno]
      push_cast
      omega
    · obtain ⟨hwait', hpay'⟩ := overtakes_step hms hr hwait hstep hwake
      refine ⟨hwait', ?_⟩
      push_cast
      omega
  -- after it, nobody of the opposite sex enters: the shower is not emptied
  | called n =>
    obtain ⟨hcur, hle⟩ := hinv
    obtain ⟨hcur', hno⟩ := keeps_current hstep (hkeep rfl) hcur
    simp only [watch]
    split_ifs with henter
    · exact hle
    · refine ⟨hcur', ?_⟩
      rw [hno]
      simpa using hle
  | entered n => exact hinv

/-- **Overtaking of one client.** In every run in which the shower is not
    emptied while client `c` has been called and has not entered, at most
    `2 * MAX_STREAK - 1` clients of the opposite sex enter between the first
    registration of `c` and its entry. -/
theorem individual_overtaking (cfg : Config C) (ms : ℤ)
    (hms : ∀ c, get_max_streak (cfg.env c) cfg.N = ms) (c : C) (x : State C × Watch)
    (h : ((watched cfg c).restrict KeepsTurn).Reachable x) : x.2.count ≤ 2 * ms - 1 := by
  have hpos : 0 < ms := hms c ▸ get_max_streak_pos _ _
  have hinv : WatchInv ms (cfg.who c) x.1.S x.2 :=
    System.invariant_of (J := (watched cfg c).Reachable)
      (I := fun x => WatchInv ms (cfg.who c) x.1.S x.2) (fun _ hr => hr.of_restrict)
      (fun y hy => by rw [hy.2]; trivial)
      (fun _ _ y' hr hi hs => by
        rw [hs.2.2]
        exact watchInv_step hms (shower_reachable_of_watched hr) hi hs.1 hs.2.1) h
  have hnn := overtakes_nonneg hpos (cfg.who c) x.1.S
  cases hw : x.2 with
  | away => simp only [Watch.count]; omega
  | waiting n =>
    rw [hw] at hinv
    simp only [Watch.count]
    have := hinv.2
    omega
  | called n => rw [hw] at hinv; exact hinv.2
  | entered n => rw [hw] at hinv; exact hinv

/-- A step, and what the observer of `c` makes of it. -/
def nextWatched (cfg : Config C) (c : C) (x : State C × Watch) (d : C) :
    Option ((State C × Watch) × Event C) :=
  (nextEvent cfg x.1 d).map fun r => ((r.1, watch cfg c x.2 r.2), r.2)

/-- `KeepsTurn`, evaluated. -/
def keepsTurn (x : State C × Watch) (e : Event C) : Bool :=
  !x.2.isCalled || x.1.pc e.client != .leaving || !x.1.S.empty

/-- In `trio` one man overtakes the woman before she enters. -/
theorem individual_overtaking_trio : ∃ x,
    ((watched trio 2).restrict KeepsTurn).Reachable x ∧ x.2 = .entered 1 ∧
      (x.2.count : ℤ) ≤ 2 * 4 - 1 := by
  have hrun : ((cmd_init trio.N).bind fun s₀ =>
      System.replayIf (nextWatched trio 2) keepsTurn (s₀, .away)
        ([1, 1, 1, 1] ++ [0, 0, 0, 0, 0, 0] ++ [2, 2, 2] ++ [1, 1] ++ [0, 0, 0] ++
          [1, 1, 1, 1] ++ [2, 2, 2, 2, 2])).any (fun x => x.2 == .entered 1) = true := by
    decide +kernel
  obtain ⟨x, hx, hprop⟩ := (Option.any_eq_true _ _).mp hrun
  obtain ⟨s₀, h₀, hx⟩ := Option.bind_eq_some_iff.mp hx
  have hreach : ((watched trio 2).restrict KeepsTurn).Reachable x := by
    refine System.Reachable.of_replayIf ?_ ?_ (.init (s := (s₀, .away)) ⟨h₀, rfl⟩) hx
    · intro y c y' e h
      obtain ⟨⟨s₁, e₁⟩, hn, heq⟩ := Option.map_eq_some_iff.mp h
      cases heq
      exact ⟨step_of_nextEvent hn, rfl⟩
    · intro y e h
      simp only [keepsTurn, Bool.or_eq_true, Bool.not_eq_true', bne_iff_ne] at h
      show y.2.isCalled = true → ¬ (y.1.pc e.client = .leaving ∧ y.1.S.empty = true)
      grind
  refine ⟨x, hreach, by simpa using hprop, ?_⟩
  exact individual_overtaking trio 4 (fun _ => rfl) 2 x hreach

/-! ### A woman who is woken in vain

  One round, with four clients: the woman under observation (`0`) is
  registered, a man (`3`) is inside. A second woman (`1`) and a second man
  (`2`) arrive and register. The man leaves and wakes both women; the second
  woman enters and leaves first and wakes the second man, who enters. The
  woman under observation finds a man inside and registers again: the round
  can start over with `2` in the place of `3`.
-/

/-- The four clients of one round, in a shower for one with `MAX_STREAK=1`. -/
def quartet : Config (Fin 4) where
  N := 1
  who := fun c => if c ≤ 1 then .WOMEN else .MEN
  env := fun _ => some 1

/-- The shared state between two rounds. -/
def betweenRounds (turn : Gender) : State (Fin 4) where
  S := {
    men_in := 1, women_in := 0, men_wait := 0, women_wait := 1
    current_gender := some .MEN, men_streak := 1, women_streak := 0
    turn := turn, N := 1 }
  sem := fun
    | .MUTEX => 1
    | _ => 0
  pc := fun c => if c = 0 then .queue else if c = 3 then .inside else .notStarted

/-- The man enters, the woman under observation registers. -/
def firstRound : List (Fin 4) := [3, 3, 3, 3, 3, 3] ++ [0, 0, 0]

/-- One round, as described above. -/
def round : List (Fin 4) :=
  [1, 1, 1] ++ [2, 2, 2] ++ [3, 3, 3, 3] ++ [1, 1, 1, 1, 1, 1, 1, 1, 1, 1] ++
    [2, 2, 2, 2, 2, 2] ++ [0, 0, 0]

/-- The man leaves and the woman under observation enters at last. -/
def lastRound : List (Fin 4) := [3, 3, 3, 3] ++ [0, 0, 0, 0, 0]

/-- A run of the quartet that ends like `betweenRounds`, with the man `m`
    inside, and what the observer of client `0` makes of it. -/
def Rounds (s : State (Fin 4)) (cs : List (Fin 4)) (turn : Gender) (m : Fin 4)
    (w w' : Watch) : Prop :=
  ∃ s' es, replay quartet s cs = some (s', es) ∧ s'.S = (betweenRounds turn).S ∧
    (∀ k ∈ [Sem.MUTEX, .CAP, .MQ, .WQ], s'.sem k = (betweenRounds turn).sem k) ∧
    s'.pc 0 = .queue ∧ s'.pc m = .inside ∧ es.foldl (watch quartet 0) w = w'

/-- `Rounds`, evaluated. -/
def roundsB (s : State (Fin 4)) (cs : List (Fin 4)) (turn : Gender) (m : Fin 4)
    (w w' : Watch) : Bool :=
  (replay quartet s cs).any fun r =>
    decide (r.1.S = (betweenRounds turn).S ∧
      (∀ k ∈ [Sem.MUTEX, .CAP, .MQ, .WQ], r.1.sem k = (betweenRounds turn).sem k) ∧
      r.1.pc 0 = .queue ∧ r.1.pc m = .inside ∧ r.2.foldl (watch quartet 0) w = w')

theorem rounds_of_eval {s : State (Fin 4)} {cs : List (Fin 4)} {turn : Gender} {m : Fin 4}
    {w w' : Watch} (h : roundsB s cs turn m w w' = true) : Rounds s cs turn m w w' := by
  obtain ⟨⟨s', es⟩, hs, hprop⟩ := (Option.any_eq_true _ _).mp h
  obtain ⟨hS, hsem, h0, hm, hw⟩ := of_decide_eq_true hprop
  exact ⟨s', es, hs, hS, hsem, h0, hm, hw⟩

theorem round_first (t : Gender) :
    Rounds (betweenRounds t) round .WOMEN 2 (.waiting 0) (.called 1) := by
  cases t <;> exact rounds_of_eval (by decide +kernel)

theorem round_again (t : Gender) :
    Rounds (betweenRounds t) round .WOMEN 2 (.called 0) (.called 1) := by
  cases t <;> exact rounds_of_eval (by decide +kernel)

/-- The first round starts from `cmd_init`. -/
theorem round_zero : ∃ t₀ t es, cmd_init quartet.N = some t₀ ∧
    replay quartet t₀ firstRound = some (t, es) ∧ t.S = (betweenRounds .MEN).S ∧
    (∀ k ∈ [Sem.MUTEX, .CAP, .MQ, .WQ], t.sem k = (betweenRounds .MEN).sem k) ∧
    (∀ c, t.pc c = (betweenRounds .MEN).pc c) ∧
    es.foldl (watch quartet 0) .away = .waiting 0 := by
  have hrun : ((cmd_init quartet.N).bind fun t₀ => replay quartet t₀ firstRound).any (fun r =>
      decide (r.1.S = (betweenRounds .MEN).S ∧
        (∀ k ∈ [Sem.MUTEX, .CAP, .MQ, .WQ], r.1.sem k = (betweenRounds .MEN).sem k) ∧
        (∀ c, r.1.pc c = (betweenRounds .MEN).pc c) ∧
        r.2.foldl (watch quartet 0) .away = .waiting 0)) = true := by
    decide +kernel
  obtain ⟨⟨t, es⟩, hs, hprop⟩ := (Option.any_eq_true _ _).mp hrun
  obtain ⟨t₀, h₀, hreplay⟩ := Option.bind_eq_some_iff.mp hs
  obtain ⟨hS, hsem, hpc, hw⟩ := of_decide_eq_true hprop
  exact ⟨t₀, t, es, h₀, hreplay, hS, hsem, hpc, hw⟩

theorem round_last (t : Gender) : ∃ s' es, replay quartet (betweenRounds t) lastRound = some (s', es) ∧
    es.foldl (watch quartet 0) (.called 0) = .entered 0 := by
  have hrun : (replay quartet (betweenRounds t) lastRound).any (fun r =>
      decide (r.2.foldl (watch quartet 0) (.called 0) = .entered 0)) = true := by
    cases t <;> decide +kernel
  obtain ⟨⟨s', es⟩, hs, hprop⟩ := (Option.any_eq_true _ _).mp hrun
  exact ⟨s', es, hs, of_decide_eq_true hprop⟩

/-! ### Round after round -/

/-- Add `m` entries to a count. -/
def Watch.shift (m : ℕ) : Watch → Watch
  | .away => .away
  | .waiting n => .waiting (n + m)
  | .called n => .called (n + m)
  | .entered n => .entered (n + m)

omit [Fintype C] in
theorem watch_shift (cfg : Config C) (c : C) (m : ℕ) {w : Watch} (hw : w ≠ .away)
    (e : Event C) : watch cfg c (w.shift m) e = (watch cfg c w e).shift m ∧
      watch cfg c w e ≠ .away := by
  cases w with
  | away => exact absurd rfl hw
  | waiting n =>
    simp only [watch, Watch.shift]
    split_ifs <;> simp [add_right_comm]
  | called n =>
    simp only [watch, Watch.shift]
    split_ifs <;> simp [add_right_comm]
  | entered n => simp [watch, Watch.shift]

omit [Fintype C] in
/-- Once the client has registered, the count goes up independently of where it stands. -/
theorem foldl_watch_shift (cfg : Config C) (c : C) (m : ℕ) (es : List (Event C)) {w : Watch}
    (hw : w ≠ .away) :
    es.foldl (watch cfg c) (w.shift m) = (es.foldl (watch cfg c) w).shift m := by
  induction es generalizing w with
  | nil => rfl
  | cons e es ih =>
    obtain ⟨heq, hne⟩ := watch_shift cfg c m hw e
    rw [List.foldl_cons, List.foldl_cons, heq, ih hne]

omit [Fintype C] in
/-- The observer of an embedded client sees what it would see among the few. -/
theorem foldl_watch_embed {D : Type*} [DecidableEq D] {ι : D → C} {small : Config D}
    {big : Config C} (h : Embeds ι small big) (d : D) (es : List (Event D)) (w : Watch) :
    (es.map (Event.map ι)).foldl (watch big (ι d)) w = es.foldl (watch small d) w := by
  induction es generalizing w with
  | nil => rfl
  | cons e es ih =>
    have he : watch big (ι d) w (e.map ι) = watch small d w e := by
      cases w <;> simp [watch, Event.map, h.inj.eq_iff, h.who]
    rw [List.map_cons, List.foldl_cons, List.foldl_cons, he, ih]

instance : Fintype Gender := ⟨{.MEN, .WOMEN}, fun g => by cases g <;> simp⟩

/-- As many men and women as `k` rounds need, in a shower for one. -/
def crowd (k : ℕ) : Config (Fin (k + 3) × Gender) where
  N := 1
  who := Prod.snd
  env := fun _ => some 1

/-- The clients of round `j`: the woman under observation is `(0, WOMEN)`. -/
def seat (k j : ℕ) (hj : j < k + 2) (c : Fin 4) : Fin (k + 3) × Gender :=
  if c = 0 then (0, .WOMEN)
  else if c = 1 then (⟨j + 1, by omega⟩, .WOMEN)
  else if c = 2 then (⟨j + 1, by omega⟩, .MEN)
  else (⟨j, by omega⟩, .MEN)

@[simp] theorem seat_zero (k j : ℕ) (hj : j < k + 2) : seat k j hj 0 = (0, .WOMEN) := rfl

theorem seat_embeds (k j : ℕ) (hj : j < k + 2) : Embeds (seat k j hj) quartet (crowd k) := by
  refine ⟨fun a b hab => ?_, fun d => ?_, fun _ => rfl⟩
  · fin_cases a <;> fin_cases b <;> simp [seat, Fin.ext_iff] at hab ⊢
  · fin_cases d <;> rfl

/-- Clients with a larger number have no seat in round `j`. -/
theorem ne_seat {k j : ℕ} (hj : j < k + 2) {i : Fin (k + 3)} (hi : j + 1 < (i : ℕ)) (g : Gender)
    (c : Fin 4) : (i, g) ≠ seat k j hj c := by
  unfold seat
  intro h
  split_ifs at h <;> simp only [Prod.ext_iff, Fin.ext_iff] at h
  · rw [h.1] at hi
    simp at hi
  all_goals omega

/-- In round `j` only the woman under observation and man `j` have been started. -/
theorem betweenRounds_pc_of_seat {k j : ℕ} {hj : j < k + 2} {i : Fin (k + 3)} {g turn : Gender}
    {c : Fin 4} (hc : (i, g) = seat k j hj c) (hi : j < (i : ℕ)) :
    (betweenRounds turn).pc c = .notStarted := by
  unfold seat at hc
  split_ifs at hc with h0 h1 h2 <;> simp only [Prod.ext_iff, Fin.ext_iff] at hc
  · rw [hc.1] at hi
    simp at hi
  · simp [betweenRounds, h1]
  · simp [betweenRounds, h2]
  · omega

/-- Before round `j`: the woman under observation waits, man `j` is inside and
    nobody with a larger number has been started. -/
structure Before (k j : ℕ) (hj : j < k + 2) (s : State (Fin (k + 3) × Gender)) : Prop where
  agree : ∃ turn, Agree (seat k j hj) (betweenRounds turn) s
  fresh : ∀ (i : Fin (k + 3)) g, j < (i : ℕ) → s.pc (i, g) = .notStarted

/-- Any schedule of `quartet` that is one of `Rounds` leads from round `j` to round `j + 1`. -/
theorem round_step {k j : ℕ} (hj : j < k + 1) {s : State (Fin (k + 3) × Gender)}
    (hs : Before k j (by omega) s) {turn : Gender} {w w' : Watch}
    (hround : ∀ t, Rounds (betweenRounds t) round turn 2 w w') (m : ℕ) (hw : w ≠ .away) :
    ∃ s' es, (watched (crowd k) (0, .WOMEN)).Run (s, w.shift m) es (s', w'.shift m) ∧
      Before k (j + 1) (by omega) s' := by
  have hemb := seat_embeds k j (by omega)
  obtain ⟨⟨t, hagree⟩, hfresh⟩ := hs
  obtain ⟨q, es, hreplay, hS, hsem, h0, h2, hwatch⟩ := hround t
  obtain ⟨s', hrun, hagree', hframe⟩ := replay_embed hemb hagree hreplay
  have hfresh' : ∀ (i : Fin (k + 3)) g, j + 1 < (i : ℕ) → s'.pc (i, g) = .notStarted :=
    fun i g hi => by
      rw [hframe (i, g) (ne_seat (by omega) hi g)]
      exact hfresh i g (by omega)
  refine ⟨s', es.map (Event.map (seat k j (by omega))), ?_, ⟨⟨turn, ?_, ?_, ?_⟩, hfresh'⟩⟩
  · have hfold := foldl_watch_embed hemb 0 es (w.shift m)
    rw [foldl_watch_shift quartet 0 m es hw, hwatch] at hfold
    have hwatched := run_watched hrun (seat k j (by omega) 0) (w.shift m)
    rwa [hfold] at hwatched
  · exact hagree'.shared.trans hS
  · rw [hagree'.sem]
    funext k
    exact hsem k (by cases k <;> simp)
  · intro d
    fin_cases d
    · exact (hagree'.pc 0).trans h0
    · exact hfresh' _ _ (by simp)
    · exact hfresh' _ _ (by simp)
    · exact (hagree'.pc 2).trans h2

/-- The woman under observation registers while man `0` is inside. -/
theorem before_zero (k : ℕ) : ∃ s, (watched (crowd k) (0, .WOMEN)).Reachable (s, .waiting 0) ∧
    Before k 0 (by omega) s := by
  have hemb := seat_embeds k 0 (by omega)
  obtain ⟨t₀, t, es, h₀, hreplay, hS, hsem, hpc, hwatch⟩ := round_zero
  obtain ⟨_, _, rfl⟩ := cmd_init_eq_some.mp h₀
  have hagree₀ : Agree (seat k 0 (by omega)) (initState quartet.N) (initState (crowd k).N) :=
    ⟨rfl, rfl, fun _ => rfl⟩
  obtain ⟨s, hrun, hagree, hframe⟩ := replay_embed hemb hagree₀ hreplay
  have hreach : (watched (crowd k) (0, .WOMEN)).Reachable (initState (crowd k).N, .away) :=
    .init ⟨cmd_init_eq_some.mpr ⟨by simp [crowd], by simp [crowd, SEMVMX], rfl⟩, rfl⟩
  have hwatched := run_watched hrun (seat k 0 (by omega) 0) .away
  rw [foldl_watch_embed hemb, hwatch] at hwatched
  refine ⟨s, hwatched.reachable hreach, ⟨.MEN, hagree.shared.trans hS, ?_, ?_⟩, ?_⟩
  · rw [hagree.sem]
    funext k
    exact hsem k (by cases k <;> simp)
  · exact fun d => (hagree.pc d).trans (hpc d)
  · intro i g hi
    by_cases hseat : ∃ d, (i, g) = seat k 0 (by omega) d
    · obtain ⟨d, hd⟩ := hseat
      rw [hd, hagree.pc, hpc]
      exact betweenRounds_pc_of_seat hd hi
    · rw [hframe (i, g) (fun d hd => hseat ⟨d, hd⟩)]
      rfl

/-- After `j + 1` rounds the woman has been woken `j + 1` times in vain. -/
theorem before_round (k j : ℕ) (hj : j < k + 1) :
    ∃ s, (watched (crowd k) (0, .WOMEN)).Reachable (s, .called (j + 1)) ∧
      Before k (j + 1) (by omega) s := by
  induction j with
  -- the first round finds the observer waiting, the later ones find it called
  | zero =>
    obtain ⟨s, hreach, hs⟩ := before_zero k
    obtain ⟨s', es, hrun, hs'⟩ := round_step (by omega) hs round_first 0 (by simp)
    exact ⟨s', hrun.reachable hreach, hs'⟩
  | succ j ih =>
    obtain ⟨s, hreach, hs⟩ := ih (by omega)
    obtain ⟨s', es, hrun, hs'⟩ := round_step (by omega) hs round_again (j + 1) (by simp)
    have hreach' := hrun.reachable (by simpa [Watch.shift] using hreach)
    exact ⟨s', by simpa [Watch.shift, add_comm] using hreach', hs'⟩

/-- More than `k` men enter between the first registration of a woman and her entry. -/
theorem starves (k : ℕ) :
    ∃ s, (watched (crowd k) (0, .WOMEN)).Reachable (s, .entered (k + 1)) := by
  obtain ⟨s, hreach, ⟨⟨t, hagree⟩, _⟩⟩ := before_round k k (by omega)
  have hemb := seat_embeds k (k + 1) (by omega)
  obtain ⟨t', es, hreplay, hwatch⟩ := round_last t
  obtain ⟨s', hrun, _, _⟩ := replay_embed hemb hagree hreplay
  have hwatched := run_watched hrun (seat k (k + 1) (by omega) 0) (Watch.shift (k + 1) (.called 0))
  rw [foldl_watch_embed hemb, foldl_watch_shift quartet 0 _ _ (by simp), hwatch,
    seat_zero] at hwatched
  refine ⟨s', ?_⟩
  have hreach' := hwatched.reachable (by simpa [Watch.shift] using hreach)
  simpa [Watch.shift] using hreach'

/-- There is no bound on individual overtaking that depends on `N` and
    `MAX_STREAK` only. -/
theorem no_individual_bound :
    ¬ ∃ B : ℤ → ℤ → ℕ, ∀ (C : Type) [Fintype C] [DecidableEq C] (cfg : Config C) (ms : ℤ),
      1 ≤ cfg.N → (∀ c, get_max_streak (cfg.env c) cfg.N = ms) →
      ∀ c x, (watched cfg c).Reachable x → x.2.count ≤ B cfg.N ms := by
  rintro ⟨B, hB⟩
  obtain ⟨s, hs⟩ := starves (B 1 1)
  have := hB _ (crowd (B 1 1)) 1 (by simp [crowd]) (fun _ => rfl) _ _ hs
  simp only [crowd, Watch.count] at this
  omega

end Shower
