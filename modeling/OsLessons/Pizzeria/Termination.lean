import OsLessons.Pizzeria.Fifo
import OsLessons.Pizzeria.Simulation

/-! # The pizzeria with semaphores: every run ends

  A potential that every operation lowers: what is left of each thread, and
  nine for every value that has not been popped, which pay for a courier's way
  back to the queue. With `finished_of_quiet` every run that cannot go on has
  finished, also without any courier.
-/

namespace Pizzeria

open Lts Semaphore

variable {cfg : Config}

/-! ### The potential -/

/-- The operations of `queue_push` that are left. -/
def PushPc.left : PushPc → ℤ
  | .waitSlots => 5
  | .waitMutex => 4
  | .store => 3
  | .postMutex => 2
  | .postItems => 1
  | .returned => 0

/-- The operations of a cook with `n` pizzas that are left. -/
def CookPc.left (n : ℤ) : CookPc → ℤ
  | .unborn => 8 * n + 2
  | .loop i => 8 * (n - i) + 1
  | .cooking i => 8 * (n - i)
  | .pushing i pc => 8 * (n - i) - 6 + pc.left
  | .leaving i => 8 * (n - i) - 6
  | .returned => 0

/-- The operations of a courier up to its next pop, which pays for the rest. -/
def CourierPc.left : CourierPc → ℤ
  | .unborn => 4
  | .loop => 3
  | .popping .waitItems => 2
  | .popping .waitMutex => 1
  | .popping .load => 0
  | .popping (.postMutex _) => 8
  | .popping (.postSlots _) => 7
  | .popping (.returned _) => 0
  | .delivering _ => 6
  | .counting _ => 5
  | .counted _ => 4
  | .returned => 0

/-- The operations of `main` that are left. -/
def MainPc.left (P K : ℕ) : MainPc → ℤ
  | .createCook i => (P - i : ℕ) + P + 8 * K + 5
  | .createCourier i => (K - i : ℕ) + P + 7 * K + 4
  | .joinCook i => (P - i : ℕ) + 7 * K + 3
  | .stop i => 6 * (K - i) + K + 2
  | .pushing i pc => 6 * (K - i) + K - 4 + pc.left
  | .joinCourier i => (K - i : ℕ) + 1
  | .finished => 0

/-- Operations left, and nine for each value that is left. -/
def Law.work : Law cfg where
  data d := -9 * d.queue_pizzas.popped.length
  cook id := CookPc.left (cfg.pizzas_to_make id)
  courier _ := CourierPc.left
  main := MainPc.left cfg.P cfg.K

/-- An operation of a thread at `l` lowers the potential. -/
def Law.Lowered (law : Law cfg) (t : cfg.Thread) (l : Pc t) (d : cfg.Shared) : Prop :=
  ((threads cfg).op t l).Delta law.sem law.data (law.pc t) l d (· ≤ -1)

theorem cook_lowers (id : Fin cfg.P) (l : CookPc) (d : cfg.Shared)
    (hl : InRange cfg (.cook id) l) : Law.work.Lowered (.cook id) l d := by
  cases l with
  | unborn =>
    intro u d' l' hf
    obtain ⟨-, heq⟩ := Option.ite_none_right_eq_some.mp hf
    cases heq
    simp [Law.work, Law.pc, CookPc.left]
  | loop i =>
    have hi : i ≤ cfg.pizzas_to_make id := hl
    by_cases h : i < cfg.pizzas_to_make id
    · simp [Law.Lowered, threads, op, cook_thread, h, Op.Delta, Law.work, Law.pc, CookPc.left]
    · have heq : i = cfg.pizzas_to_make id := by omega
      simp [Law.Lowered, threads, op, cook_thread, heq, Op.Delta, goOn, Law.work, Law.pc,
        CookPc.left]
  | cooking i =>
    simp [Law.Lowered, threads, op, cook_thread, Op.Delta, goOn, Law.work, Law.pc, CookPc.left,
      CookPc.push, PushPc.left]
    omega
  | pushing i pc =>
    cases pc <;>
      simp [Law.Lowered, threads, op, cook_thread, queue_push, Op.embed, Op.Delta, Law.work,
        Law.pc, CookPc.left, CookPc.push, PushPc.left, Shared.setQueue, PizzaQueue.store]
  | leaving i =>
    simp [Law.Lowered, threads, op, cook_thread, Op.Delta, Law.work, Law.pc, CookPc.left]
    omega
  | returned => simp [Law.Lowered, threads, op, cook_thread, Op.Delta]

theorem courier_lowers (id : Fin cfg.K) (l : CourierPc) (d : cfg.Shared) :
    Law.work.Lowered (.courier id) l d := by
  cases l with
  | unborn =>
    intro u d' l' hf
    obtain ⟨-, heq⟩ := Option.ite_none_right_eq_some.mp hf
    cases heq
    simp [Law.work, Law.pc, CourierPc.left]
  | popping pc =>
    cases pc with
    | postSlots value =>
      by_cases hv : value < 0 <;>
        simp [Law.Lowered, threads, op, courier_thread, queue_pop, Op.embed, Op.Delta, Law.work,
          Law.pc, CourierPc.left, CourierPc.pop, hv]
    | load =>
      simp [Law.Lowered, threads, op, courier_thread, queue_pop, Op.embed, Op.Delta, Law.work,
        Law.pc, CourierPc.left, CourierPc.pop, Shared.setQueue, PizzaQueue.load]
      omega
    | waitItems | waitMutex | postMutex | returned =>
      simp [Law.Lowered, threads, op, courier_thread, queue_pop, Op.embed, Op.Delta, Law.work,
        Law.pc, CourierPc.left, CourierPc.pop]
  | loop | delivering value | counting value | counted value | returned =>
    simp [Law.Lowered, threads, op, courier_thread, Op.Delta, goOn, Law.work, Law.pc,
      CourierPc.left, CourierPc.pop]

theorem main_lowers (l : MainPc) (d : cfg.Shared) (hl : InRange cfg .main l) :
    Law.work.Lowered .main l d := by
  cases l with
  | createCook i | createCourier i =>
    intro u d' l' hf
    simp only at hf
    split at hf
    · cases hf
      simp [Law.work, Law.pc, MainPc.left, Shared.create]
      omega
    · cases hf
      simp [Law.work, Law.pc, MainPc.left]
      omega
  | joinCook i =>
    by_cases h : i < cfg.P <;>
      simp [Law.Lowered, threads, op, main, h, Op.Delta, goOn, Law.work, Law.pc, MainPc.left] <;>
      omega
  | joinCourier i =>
    by_cases h : i < cfg.K <;>
      simp [Law.Lowered, threads, op, main, h, Op.Delta, goOn, Law.work, Law.pc, MainPc.left]
    omega
  | stop i =>
    have hi : i ≤ cfg.K := hl
    by_cases h : i < cfg.K <;>
      simp [Law.Lowered, threads, op, main, h, Op.Delta, goOn, Law.work, Law.pc, MainPc.left,
        MainPc.push, PushPc.left] <;>
      omega
  | pushing i pc =>
    cases pc <;>
      simp [Law.Lowered, threads, op, main, queue_push, Op.embed, Op.Delta, Law.work,
        Law.pc, MainPc.left, MainPc.push, PushPc.left, Shared.setQueue, PizzaQueue.store] <;>
      omega
  | finished => simp [Law.Lowered, threads, op, main, Op.Delta]

/-! ### Every run -/

theorem PushPc.left_nonneg (pc : PushPc) : 0 ≤ pc.left := by
  cases pc <;> decide

/-- The potential is no less than what the values popped have cost. -/
theorem work_ge {s : cfg.State} (h : (pizzeria cfg).Reachable s) :
    -9 * (s.data.queue_pizzas.popped.length : ℤ) ≤ Law.work.total s := by
  have hcooks : 0 ≤ ∑ id, CookPc.left (cfg.pizzas_to_make id) (cookPc s id) := by
    apply Finset.sum_nonneg
    intro id _
    have hrange : InRange cfg (.cook id) (cookPc s id) := inRange h (.cook id)
    cases hpc : cookPc s id with
    | pushing i pc =>
      rw [hpc] at hrange
      have hi : i < cfg.pizzas_to_make id := hrange.1
      have hleft := pc.left_nonneg
      rw [CookPc.left]
      omega
    | loop i =>
      rw [hpc] at hrange
      have hi : i ≤ cfg.pizzas_to_make id := hrange
      rw [CookPc.left]
      omega
    | cooking i | leaving i =>
      rw [hpc] at hrange
      have hi : i < cfg.pizzas_to_make id := hrange
      rw [CookPc.left]
      omega
    | unborn =>
      rw [CookPc.left]
      omega
    | returned => exact le_rfl
  have hcouriers : 0 ≤ ∑ id, CourierPc.left (courierPc s id) := by
    apply Finset.sum_nonneg
    intro id _
    cases courierPc s id with
    | popping pc => cases pc <;> simp [CourierPc.left]
    | _ => simp [CourierPc.left]
  have hmain : 0 ≤ MainPc.left cfg.P cfg.K (mainPc s) := by
    have hrange : InRange cfg .main (mainPc s) := inRange h .main
    cases hpc : mainPc s with
    | stop i =>
      rw [hpc] at hrange
      have hi : i ≤ cfg.K := hrange
      rw [MainPc.left]
      omega
    | pushing i pc =>
      rw [hpc] at hrange
      have hi : i < cfg.K := hrange.1
      have hleft := pc.left_nonneg
      rw [MainPc.left]
      omega
    | _ =>
      rw [MainPc.left]
      try omega
  have htotal : Law.work.total s = -9 * (s.data.queue_pizzas.popped.length : ℤ) +
      (∑ id, CookPc.left (cfg.pizzas_to_make id) (cookPc s id) +
        ∑ id, CourierPc.left (courierPc s id) + MainPc.left cfg.P cfg.K (mainPc s)) := by
    simp [Law.total, Law.work]
  omega

/-- No more values are popped than there are pizzas and stop values. -/
theorem popped_le {s : cfg.State} (h : (pizzeria cfg).Reachable s) :
    s.data.queue_pizzas.popped.length ≤ cfg.total_pizzas + cfg.K := by
  have hpopped : s.data.queue_pizzas.popped.length ≤ s.data.queue_pizzas.pushed.length :=
    (laws (seen_reachable h)).le
  have hpushes := (books h).pushes
  have hsum : ∑ u, Law.pushes.pc u (s.thread u) =
      ∑ id, (cookPc s id).toPush (cfg.pizzas_to_make id) + (mainPc s).toPush cfg.K := by
    rw [Thread.sum_eq]
    simp [Law.pushes, Law.pc, cookPc, mainPc]
  have hnonneg : 0 ≤ ∑ u, Law.pushes.pc u (s.thread u) := by
    apply Finset.sum_nonneg
    intro u _
    have hstoring := (storing_le_toPush (inRange h u)).1
    unfold at_ at hstoring
    split at hstoring <;> omega
  omega

/-- No run takes more operations. -/
theorem run_le {buf : ℕ → ℤ} {s : cfg.State} {es : List (Event cfg.Thread Unit)}
    (h : (pizzeria cfg).Run (init cfg buf) es s) :
    es.length ≤ 17 * cfg.total_pizzas + 4 * cfg.P + 21 * cfg.K + 5 := by
  have hlower : ∀ t l d, InRange cfg t l → Law.work.Lowered t l d := by
    intro t l d hl
    cases t with
    | cook id => exact cook_lowers id l d hl
    | courier id => exact courier_lowers id l d
    | main => exact main_lowers l d hl
  have hinit : (pizzeria cfg).Reachable (init cfg buf) := .init ⟨buf, rfl⟩
  have hreach := h.reachable hinit
  have hle := run_length_le (fun _ hs => inRange hs) hlower (fun t l l' _ hl => by cases hl) h hinit
  rw [Law.value_eq, Law.value_eq] at hle
  have hpopped := popped_le hreach
  have hge := work_ge hreach
  have hstart : Law.work.total (init cfg buf) =
      8 * cfg.total_pizzas + 2 * cfg.P + 4 * cfg.K + (2 * cfg.P + 8 * cfg.K + 5) := by
    simp [Law.total, Law.work, init, cookPc, courierPc, mainPc, CookPc.left, CourierPc.left,
      MainPc.left, Config.total_pizzas, Finset.sum_add_distrib, Finset.mul_sum]
    ring
  omega

/-! ### What is left without couriers -/

/-- Without a courier nothing is delivered, and every pizza stays in the
    queue. -/
theorem undelivered (hK : cfg.K = 0) {s : cfg.State} (h : (pizzeria cfg).Reachable s)
    (hfin : mainPc s = .finished) :
    s.data.queue_pizzas.popped = [] ∧ s.data.delivered_total = 0 ∧
      s.data.queue_pizzas.pushed.length = cfg.total_pizzas := by
  have hbooks := books h
  have horder := order h
  have hnone : s.data.queue_pizzas.popped = [] := by
    apply List.eq_nil_iff_forall_not_mem.mpr
    intro e he
    obtain ⟨c, -⟩ := (flow h).takers e he
    exact absurd c.isLt (by omega)
  have hcook : ∀ id, cookPc s id = .returned := fun id =>
    horder.joinedCook id (by rw [hfin]; trivial)
  have hcarrying : ∑ id, (courierPc s id).carrying = 0 := by
    apply Finset.sum_eq_zero
    intro id _
    exact absurd id.isLt (by omega)
  have hdelivered := hbooks.deliveries
  have hpushes := hbooks.pushes
  rw [hnone, hcarrying] at hdelivered
  simp only [hcook, hfin, CookPc.toPush, MainPc.toPush, Finset.sum_const_zero, hK] at hpushes
  simp only [List.length_nil, stops_nil] at hdelivered
  exact ⟨hnone, by omega, by omega⟩

/-- **Every run ends**, within a number of operations that is known beforehand;
    where it cannot go on, `main` has finished, with everything delivered, or
    with nothing delivered if there is no courier. -/
theorem every_run_finishes (hN : 0 < cfg.N_tables) {buf : ℕ → ℤ} {s : cfg.State}
    {es : List (Event cfg.Thread Unit)} (h : (pizzeria cfg).Run (init cfg buf) es s) :
    es.length ≤ 17 * cfg.total_pizzas + 4 * cfg.P + 21 * cfg.K + 5 ∧
      ((∀ e, ¬ (pizzeria cfg).Enabled s e) → mainPc s = .finished ∧
        (0 < cfg.K → Outcome cfg s) ∧
        (cfg.K = 0 → s.data.queue_pizzas.popped = [] ∧ s.data.delivered_total = 0 ∧
          s.data.queue_pizzas.pushed.length = cfg.total_pizzas)) := by
  have hreach : (pizzeria cfg).Reachable s := h.reachable (.init ⟨buf, rfl⟩)
  refine ⟨run_le h, fun hquiet => ?_⟩
  have hfin := finished_of_quiet hN hreach (stuck_of_not_enabled hquiet)
  exact ⟨hfin, fun hK => outcome hK hreach hfin, fun hK => undelivered hK hreach hfin⟩

theorem every_run_finishes_solo : ∃ s,
    (pizzeria soloConfig).Run (init soloConfig fun _ => 0) soloRun s ∧ soloRun.length ≤ 47 := by
  have hrun : (replay (threads soloConfig) (init soloConfig fun _ => 0) soloRun).isSome = true := by
    decide +kernel
  obtain ⟨s, hreplay⟩ := Option.isSome_iff_exists.mp hrun
  have hsolo : (pizzeria soloConfig).Run (init soloConfig fun _ => 0) soloRun s :=
    Run.of_replay hreplay
  exact ⟨s, hsolo, (every_run_finishes (by decide) hsolo).1⟩

end Pizzeria
