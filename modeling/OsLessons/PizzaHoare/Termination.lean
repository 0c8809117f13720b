import OsLessons.PizzaHoare.Wakeup

/-! # The kitchen: every run ends

  A cook pays for the steps of each of its pizzas, for the two threads its
  signals wake and for the courier that takes the pizza. The broadcast of the
  last cook is paid for at the start. Only spurious wake-ups can prolong a run.
-/

namespace PizzaHoare

open Lts Monitor

variable {cfg : Config}

/-! ### Weights -/

/-- What a cook with `n` pizzas to make may still spend. -/
def CookPc.weight (n : ℕ) : CookPc → ℕ
  | .loop i => 11 * (n - i) + 2
  | .starting i => 11 * (n - i) + 1
  | .cooking i => 11 * (n - i)
  | .finishing i => 11 * (n - i) - 1
  | .leaving => 1
  | .returned => 0

def CourierPc.weight : CourierPc → ℕ
  | .loop _ => 2
  | .taking _ => 1
  | .delivering _ => 3
  | .returned _ => 0

/-- Three for every pizza that is ready, and the broadcast of the last cook to
    `n` threads. -/
def Kitchen.weight (n : ℕ) (k : Kitchen) : ℕ :=
  3 * k.ready_pizzas.toNat + if 0 < k.active_cooks then 2 * n else 0

def pcWeight (cfg : Config) : ∀ t : cfg.Thread, Pc t → ℕ
  | .cook id => CookPc.weight (cfg.pizzas_to_make id)
  | .courier _ => CourierPc.weight

/-- Every event but a spurious wake-up gets a thread ahead. -/
abbrev idle : Unit → Bool := fun _ => false

theorem cook_pays {n m : ℕ} {l : CookPc} {k : Kitchen} (hready : 0 ≤ k.ready_pizzas)
    (hl : ∀ i, l = .starting i ∨ l = .cooking i ∨ l = .finishing i → i < n) :
    (cook_thread n l).PaysAt m idle (Kitchen.weight m) (fun _ => 0) (CookPc.weight n) l k := by
  cases l with
  | loop i =>
    by_cases hi : i < n
    · simp only [cook_thread, hi, ↓reduceIte]
      show 11 * (n - i) + 1 < 11 * (n - i) + 2
      omega
    · simp only [cook_thread, hi, ↓reduceIte]
      show 1 < 11 * (n - i) + 2
      omega
  | starting i =>
    unfold cook_thread kitchen_start_cooking
    by_cases hfull : k.free_tables = 0
    -- it sleeps, and gets the two back
    · simp [Op.PaysAt, hfull, CookPc.weight]
      omega
    · simp [Op.PaysAt, hfull, CookPc.weight, Kitchen.weight]
  | cooking i =>
    have hi := hl i (.inr (.inl rfl))
    show 11 * (n - i) - 1 < 11 * (n - i)
    omega
  | finishing i =>
    have hi := hl i (.inr (.inr rfl))
    have hmore : (k.ready_pizzas + 1).toNat = k.ready_pizzas.toNat + 1 := by omega
    change 3 * (k.ready_pizzas + 1).toNat + (if 0 < k.active_cooks then 2 * m else 0) +
        (11 * (n - (i + 1)) + 2) + 2 * (1 + (1 + 0)) <
      3 * k.ready_pizzas.toNat + (if 0 < k.active_cooks then 2 * m else 0) + (11 * (n - i) - 1) + 0
    omega
  | leaving =>
    by_cases hlast : k.active_cooks - 1 = 0
    · have hone : k.active_cooks = 1 := by omega
      simp [Op.PaysAt, cook_thread, kitchen_cook_done, CookPc.weight, Kitchen.weight, Wake.most,
        hone]
    · simp [Op.PaysAt, cook_thread, kitchen_cook_done, CookPc.weight, Kitchen.weight, hlast]
      split_ifs <;> omega
  | returned => trivial

theorem courier_pays {m : ℕ} {l : CourierPc} {k : Kitchen} (hready : 0 ≤ k.ready_pizzas)
    (hactive : 0 ≤ k.active_cooks) :
    (courier_thread l).PaysAt m idle (Kitchen.weight m) (fun _ => 0) CourierPc.weight l k := by
  cases l with
  | loop taken =>
    show 1 < 2
    decide
  | taking taken =>
    unfold courier_thread kitchen_take_pizza
    by_cases hwait : k.ready_pizzas = 0 ∧ k.active_cooks > 0
    · simp [Op.PaysAt, hwait, CourierPc.weight]
    · by_cases hhome : k.ready_pizzas = 0 ∧ k.active_cooks = 0
      · simp [Op.PaysAt, hhome, CourierPc.weight]
      · have hless : (k.ready_pizzas - 1).toNat + 1 = k.ready_pizzas.toNat := by omega
        simp [Op.PaysAt, hwait, hhome, CourierPc.weight, Kitchen.weight]
        omega
  | delivering taken =>
    intro x a x' l' hcall
    cases hcall
    show 2 + 0 + 1 ≤ 3 + 0
    decide
  | returned => trivial

theorem pays {s : cfg.State} (h : (kitchen cfg).Reachable s) (t : cfg.Thread) :
    (op cfg t (s.thread t)).PaysAt (Fintype.card cfg.Thread) idle
      (Kitchen.weight (Fintype.card cfg.Thread)) (fun _ => 0) (pcWeight cfg t) (s.thread t)
      s.data := by
  have hready := (sound h).ready
  cases t with
  | cook id =>
    have hrange := inRange h (.cook id)
    refine cook_pays hready ?_
    intro i hi
    rcases hi with hi | hi | hi <;>
    · rw [hi] at hrange
      exact hrange
  | courier id =>
    refine courier_pays hready ?_
    rw [(books h).cooks]
    exact Finset.sum_nonneg fun id _ => active_nonneg _

/-! ### The end -/

/-- A delivery is always possible. -/
theorem calls_answered (s : cfg.State) (t : cfg.Thread) {k : Unit → Unit → Option (Unit × Pc t)}
    (hop : op cfg t (s.thread t) = .call k) : ∃ a, idle a = false ∧ (k s.world a).isSome := by
  refine ⟨(), rfl, ?_⟩
  cases t with
  | cook id =>
    have hc : cook_thread (cfg.pizzas_to_make id) (cookPc s id) = .call k := hop
    cases hpc : cookPc s id with
    | loop i =>
      rw [hpc] at hc
      obtain ⟨l, hl⟩ := cook_loop_lock (cfg.pizzas_to_make id) i
      cases hl.symm.trans hc
    | starting | cooking | finishing | leaving | returned =>
      rw [hpc] at hc
      cases hc
  | courier id =>
    have hc : courier_thread (courierPc s id) = .call k := hop
    cases hpc : courierPc s id with
    | delivering taken =>
      rw [hpc] at hc
      cases hc
      rfl
    | loop | taking | returned =>
      rw [hpc] at hc
      cases hc

/-- What is left when nobody but a spurious wake-up could get on. -/
structure Closed (cfg : Config) (s : cfg.State) : Prop where
  cooks : ∀ id, cookPc s id = .returned
  couriers : ∀ id, ∃ taken, courierPc s id = .returned taken
  /-- all tables are free, no pizza is left and no cook is counted -/
  counters : s.data = { free_tables := cfg.N_tables, ready_pizzas := 0, active_cooks := 0 }
  taken : ∑ id, (courierPc s id).taken = cfg.total_pizzas

theorem closed_of_quiet (hN : 0 < cfg.N_tables) (hK : 0 < cfg.K) {s : cfg.State}
    (h : (kitchen cfg).Reachable s)
    (hquiet : ∀ e, ¬ e.isSpurious → ¬ (kitchen cfg).Enabled s e) : Closed cfg s := by
  obtain ⟨signalled, hwatched⟩ := exists_watched h
  have hbooks := books h
  have hnone : ∀ e, Event.effective idle e = true → Monitor.next (op cfg) s e = none := by
    intro e he
    by_contra hnext
    obtain ⟨s', hnext⟩ := Option.ne_none_iff_exists'.mp hnext
    refine hquiet e ?_ ⟨s', step_of_next hnext⟩
    cases e with
    | spurious t => cases he
    | call | lock | leave => exact Bool.false_ne_true
  obtain ⟨hcooks, hcouriers⟩ := returned_of_quiet hN (waiting hwatched) hbooks
    (stuck_of_quiet (owned h) (fun t k hop => calls_answered s t hop) hnone)
  obtain ⟨taken, hhome⟩ := hcouriers ⟨0, hK⟩
  obtain ⟨hready, hactive⟩ := (sound h).home _ _ hhome
  have htables := hbooks.tables
  have hpizzas := hbooks.pizzas
  simp only [hcooks, CookPc.atTable, CookPc.finished, Finset.sum_const_zero, add_zero,
    hready, zero_add] at htables hpizzas
  refine ⟨hcooks, hcouriers, ?_, ?_⟩
  · calc s.data = ⟨s.data.free_tables, s.data.ready_pizzas, s.data.active_cooks⟩ := rfl
      _ = ⟨cfg.N_tables, 0, 0⟩ := by rw [htables, hready, hactive]
  · rw [hpizzas]
    exact (Nat.cast_sum _ _).symm

theorem weight_init (cfg : Config) : weight (Kitchen.weight (Fintype.card cfg.Thread))
    (fun _ => 0) (pcWeight cfg) (init cfg) ≤ 11 * cfg.total_pizzas + 6 * (cfg.P + cfg.K) := by
  have hcard : Fintype.card cfg.Thread = cfg.P + cfg.K := by
    rw [Fintype.card_congr (Thread.equiv cfg.P cfg.K), Fintype.card_sum, Fintype.card_fin,
      Fintype.card_fin]
  have hsum : ∑ t, pcWeight cfg t ((init cfg).thread t) =
      ∑ id : Fin cfg.P, (11 * cfg.pizzas_to_make id + 2) + ∑ _ : Fin cfg.K, 2 := by
    rw [← (Thread.equiv cfg.P cfg.K).symm.sum_comp, Fintype.sum_sum_type]
    rfl
  have hdata : Kitchen.weight (Fintype.card cfg.Thread) (init cfg).data ≤
      2 * Fintype.card cfg.Thread := by
    by_cases hP : 0 < cfg.P <;> simp [Kitchen.weight, init, kitchen_init, hP]
  have hawake := awake_le (init cfg).asleep
  unfold weight
  rw [hsum, Finset.sum_add_distrib, ← Finset.mul_sum]
  simp only [Finset.sum_const, Finset.card_univ, Fintype.card_fin, smul_eq_mul]
  rw [hcard] at hdata hawake
  unfold Config.total_pizzas
  rw [hcard]
  omega

/-- **Every run ends**: without spurious wake-ups there are at most 11 steps for
    each pizza and 6 for each thread, a spurious wake-up adds three at most, and
    where nothing else can happen all pizzas have been taken and everybody has
    gone home. -/
theorem kitchen_closes (hN : 0 < cfg.N_tables) (hK : 0 < cfg.K) {s : cfg.State}
    {es : List (Event cfg.Thread Unit)} (h : (kitchen cfg).Run (init cfg) es s) :
    es.length ≤ 11 * cfg.total_pizzas + 6 * (cfg.P + cfg.K) + 3 * es.countP Event.isSpurious ∧
      ((∀ e, ¬ e.isSpurious → ¬ (kitchen cfg).Enabled s e) → Closed cfg s) := by
  have hinit : (kitchen cfg).Reachable (init cfg) := .init rfl
  have hreach := h.reachable hinit
  refine ⟨?_, closed_of_quiet hN hK hreach⟩
  have hpaid := Run.effective_le_of (I := (kitchen cfg).Reachable) (op_disciplined cfg)
    (fun _ _ _ hs hstep => hs.step hstep) (fun _ hs => pays hs) h (owned hinit) hinit
  have hweight := weight_init cfg
  have hlen : es.length = es.countP (Event.effective idle) + es.countP Event.isSpurious := by
    rw [List.length_eq_countP_add_countP (Event.effective idle)]
    congr 1
    refine List.countP_congr fun e _ => ?_
    cases e <;> simp [Event.effective, Event.isSpurious, idle]
  omega

/-- At the end of this run both threads have returned. -/
theorem solo_quiet : ∃ s, (kitchen soloConfig).Run (init soloConfig) soloRun s ∧
    ∀ e, ¬ e.isSpurious → ¬ (kitchen soloConfig).Enabled s e := by
  have hrun : (replay (op soloConfig) (init soloConfig) soloRun).any (fun s =>
      decide (cookPc s ⟨0, by decide⟩ = .returned ∧ courierPc s ⟨0, by decide⟩ = .returned 1)) =
        true := by
    decide +kernel
  obtain ⟨s, hreplay, hends⟩ := (Option.any_eq_true _ _).mp hrun
  obtain ⟨hcook, hcourier⟩ := of_decide_eq_true hends
  refine ⟨s, Run.of_replay hreplay, ?_⟩
  have hexit : ∀ t, op soloConfig t (s.thread t) = .exit := by
    intro t
    cases t with
    | cook id =>
      have hid : cookPc s id = .returned := by
        rw [show id = ⟨0, by decide⟩ from @Subsingleton.elim (Fin 1) _ _ _]
        exact hcook
      show cook_thread _ (cookPc s id) = .exit
      rw [hid]
      rfl
    | courier id =>
      have hid : courierPc s id = .returned 1 := by
        rw [show id = ⟨0, by decide⟩ from @Subsingleton.elim (Fin 1) _ _ _]
        exact hcourier
      show courier_thread (courierPc s id) = .exit
      rw [hid]
      rfl
  intro e hspurious ⟨s', hstep⟩
  cases hstep with
  | call hop | lock hop | leave hop => cases (hexit _).symm.trans hop
  | spurious => exact hspurious rfl

theorem kitchen_closes_solo : ∃ s, (kitchen soloConfig).Run (init soloConfig) soloRun s ∧
    soloRun.length ≤ 23 ∧ s.data = { free_tables := 1, ready_pizzas := 0, active_cooks := 0 } := by
  obtain ⟨s, hsolo, hquiet⟩ := solo_quiet
  obtain ⟨hlen, hclosed⟩ := kitchen_closes (by decide) (by decide) hsolo
  exact ⟨s, hsolo, hlen, (hclosed hquiet).counters⟩

end PizzaHoare
