import OsLessons.Pizzeria.Model

/-! # The accounts of the pizzeria

  What the semaphores, the history of the queue and the places of the threads
  say about one another. The queue is the one of `queueSystem`, since every
  thread is a client of it; tables, statistics, stop values and deliveries add
  conservation laws of their own, one for each place where something is handed
  on.
-/

namespace Pizzeria

open Lts Semaphore

variable {cfg : Config}

/-! ### Clients of the queue -/

/-- `queue_push` in a thread is `queue_push` in a client. -/
theorem push_mirrors {L : Type} {v : L → QueuePc} {k : PushPc → L} {l : L} {t : cfg.Thread}
    {value : ℤ} {pc : PushPc} (hview : ∀ pc, v (k pc) = .push value pc)
    (hl : v l = .push value pc) :
    ((queue_push t value pc).embed Shared.queue_pizzas Shared.setQueue Sem.queue k :
      Op cfg.Shared Sem cfg.Thread Unit L).Mirrors Shared.queue_pizzas Sem.queue v l
        (client t (v l)) := by
  rw [hl]
  cases pc with
  | returned => trivial
  | waitSlots | waitMutex | store | postMutex | postItems =>
    exact Op.embed_mirrors id (fun _ q => q) id
      (queue_push_ne_join t value _) (fun _ _ => rfl) hview

/-- `queue_pop` in a thread is `queue_pop` in a client. -/
theorem pop_mirrors {L : Type} {v : L → QueuePc} {k : PopPc → L} {l : L} {t : cfg.Thread}
    {pc : PopPc} (hview : ∀ pc, v (k pc) = .pop pc) (hl : v l = .pop pc) :
    ((queue_pop t pc).embed Shared.queue_pizzas Shared.setQueue Sem.queue k :
      Op cfg.Shared Sem cfg.Thread Unit L).Mirrors Shared.queue_pizzas Sem.queue v l
        (client t (v l)) := by
  rw [hl]
  cases pc with
  | returned => trivial
  | waitItems | waitMutex | load | postMutex | postSlots =>
    exact Op.embed_mirrors id (fun _ q => q) id
      (queue_pop_ne_join t _) (fun _ _ => rfl) hview

/-- Own code that leaves the queue alone. -/
theorem goOn_mirrors {L : Type} {v : L → QueuePc} {l l' : L} {t : cfg.Thread}
    (h : v l' = v l ∨ (v l = .idle ∧ ∃ a : Request, v l' = a.call)) :
    (Op.act (goOn cfg l') : Op cfg.Shared Sem cfg.Thread Unit L).Mirrors Shared.queue_pizzas
      Sem.queue v l (client t (v l)) := by
  intro d a d' l₁ hf
  cases hf
  rcases h with h | ⟨hidle, a', hcall⟩
  · exact .inr ⟨rfl, h⟩
  -- from the idle place a client may call what it wants
  · left
    refine ⟨_, a', by rw [hidle]; rfl, ?_⟩
    rw [hcall]

/-- Every thread is a client of the queue. -/
theorem threads_mirror (cfg : Config) :
    Mirrors (threads cfg) clients Shared.queue_pizzas Sem.queue view where
  inj := by
    intro k k' h
    cases h
    rfl
  op t l := by
    cases t with
    | cook id =>
      cases l with
      | unborn =>
        intro d a d' l' hf
        obtain ⟨-, heq⟩ := Option.ite_none_right_eq_some.mp hf
        cases heq
        exact .inr ⟨rfl, rfl⟩
      | loop i =>
        show Op.Mirrors _ _ _ _ (ite _ _ _) _
        split
        · exact .inr ⟨by simp, rfl⟩
        · exact goOn_mirrors (t := .cook id) (.inl rfl)
      | cooking i => exact goOn_mirrors (t := .cook id) (.inr ⟨rfl, .push (pizza_id id i), rfl⟩)
      | pushing i pc => exact push_mirrors (fun pc => by cases pc <;> rfl) rfl
      | leaving i => exact .inr ⟨by simp, rfl⟩
      | returned => trivial
    | courier id =>
      cases l with
      | unborn =>
        intro d a d' l' hf
        obtain ⟨-, heq⟩ := Option.ite_none_right_eq_some.mp hf
        cases heq
        exact .inr ⟨rfl, rfl⟩
      | loop => exact goOn_mirrors (t := .courier id) (.inr ⟨rfl, .pop, rfl⟩)
      | popping pc =>
        have hview : ∀ pc, view (.courier id : cfg.Thread) (CourierPc.pop pc) = .pop pc := by
          intro pc
          cases pc with
          | returned value =>
            show view (.courier id : cfg.Thread) (ite _ _ _) = .idle
            split <;> rfl
          | waitItems | waitMutex | load | postMutex | postSlots => rfl
        exact pop_mirrors hview rfl
      | delivering value => exact .inr ⟨by simp, rfl⟩
      | counting value =>
        intro d a d' l' hf
        cases hf
        exact .inr ⟨rfl, rfl⟩
      | counted value => exact .inr ⟨by simp, rfl⟩
      | returned => trivial
    | main =>
      cases l with
      | createCook i =>
        intro d a d' l' hf
        simp only at hf
        split at hf <;>
        · cases hf
          exact .inr ⟨rfl, rfl⟩
      | createCourier i =>
        intro d a d' l' hf
        simp only at hf
        split at hf <;>
        · cases hf
          exact .inr ⟨rfl, rfl⟩
      | joinCook i =>
        show Op.Mirrors _ _ _ _ (dite _ _ _) _
        split
        · rfl
        · exact goOn_mirrors (t := .main) (.inl rfl)
      | stop i =>
        show Op.Mirrors _ _ _ _ (ite _ _ _) _
        split
        · exact goOn_mirrors (t := .main) (.inr ⟨rfl, .push (-1), rfl⟩)
        · exact goOn_mirrors (t := .main) (.inl rfl)
      | pushing i pc => exact push_mirrors (fun pc => by cases pc <;> rfl) rfl
      | joinCourier i =>
        show Op.Mirrors _ _ _ _ (dite _ _ _) _
        split
        · rfl
        · exact goOn_mirrors (t := .main) (.inl rfl)
      | finished => trivial
  signal t l l' h := by cases h

/-- What the queue sees of a state. -/
def seen (s : cfg.State) : Host (PizzaQueue cfg.Thread) QueueSem fun _ : cfg.Thread => QueuePc :=
  image Shared.queue_pizzas Sem.queue view s

theorem seen_reachable {s : cfg.State} (h : (pizzeria cfg).Reachable s) :
    (queueSystem cfg.Thread cfg.queue_capacity).Reachable (seen s) := by
  apply (threads_mirror cfg).reachable _ h
  rintro _ ⟨buf, rfl⟩
  constructor
  case thread =>
    intro t
    cases t <;> rfl
  all_goals rfl

/-! ### Loop indices -/

/-- The index of each loop is in its range, and nobody stays at the end of a
    call. -/
def InRange (cfg : Config) : ∀ t : cfg.Thread, Pc t → Prop
  | .cook id, .loop i => i ≤ cfg.pizzas_to_make id
  | .cook id, .cooking i | .cook id, .leaving i => i < cfg.pizzas_to_make id
  | .cook id, .pushing i pc => i < cfg.pizzas_to_make id ∧ pc ≠ .returned
  | .courier _, .popping pc => ∀ value, pc ≠ .returned value
  | .main, .stop i => i ≤ cfg.K
  | .main, .pushing i pc => i < cfg.K ∧ pc ≠ .returned
  | _, _ => True

theorem cook_then (id : Fin cfg.P) (l : CookPc) (hl : InRange cfg (.cook id) l) :
    (cook_thread cfg id l).Then (InRange cfg (.cook id)) := by
  cases l with
  | unborn =>
    intro d a d' l' hf
    obtain ⟨-, heq⟩ := Option.ite_none_right_eq_some.mp hf
    cases heq
    exact Nat.zero_le _
  | loop i =>
    show Op.Then _ (ite _ _ _)
    split
    · next hlt => exact hlt
    · rintro d a d' l' ⟨⟩
      trivial
  | cooking i =>
    rintro d a d' l' ⟨⟩
    exact ⟨hl, by simp⟩
  | pushing i pc =>
    obtain ⟨hi, -⟩ := hl
    cases pc with
    | store =>
      rintro d a d' l' ⟨⟩
      exact ⟨hi, by simp⟩
    | waitSlots | waitMutex | postMutex => exact ⟨hi, by simp⟩
    | postItems => exact hi
    | returned => trivial
  | leaving i => exact hl
  | returned => trivial

theorem courier_then (id : Fin cfg.K) (l : CourierPc) :
    (courier_thread cfg id l).Then (InRange cfg (.courier id)) := by
  cases l with
  | unborn =>
    intro d a d' l' hf
    obtain ⟨-, heq⟩ := Option.ite_none_right_eq_some.mp hf
    cases heq
    trivial
  | loop =>
    rintro d a d' l' ⟨⟩ value ⟨⟩
  | popping pc =>
    cases pc with
    | load =>
      rintro d a d' l' ⟨⟩ value ⟨⟩
    | waitItems | waitMutex | postMutex => rintro value ⟨⟩
    | postSlots v =>
      show InRange cfg (.courier id) (ite _ _ _)
      split <;> trivial
    | returned => trivial
  | counting v =>
    rintro d a d' l' ⟨⟩
    trivial
  | delivering | counted | returned => trivial

theorem main_then (l : MainPc) (hl : InRange cfg .main l) :
    (main cfg l).Then (InRange cfg .main) := by
  cases l with
  | createCook i | createCourier i =>
    intro d a d' l' hf
    simp only at hf
    split at hf <;>
    · cases hf
      trivial
  | joinCook i =>
    show Op.Then _ (dite _ _ _)
    split
    · trivial
    · rintro d a d' l' ⟨⟩
      exact Nat.zero_le _
  | stop i =>
    show Op.Then _ (ite _ _ _)
    split
    · next hlt =>
      rintro d a d' l' ⟨⟩
      exact ⟨hlt, by simp⟩
    · rintro d a d' l' ⟨⟩
      trivial
  | pushing i pc =>
    obtain ⟨hi, -⟩ := hl
    cases pc with
    | store =>
      rintro d a d' l' ⟨⟩
      exact ⟨hi, by simp⟩
    | waitSlots | waitMutex | postMutex => exact ⟨hi, by simp⟩
    | postItems => exact hi
    | returned => trivial
  | joinCourier i =>
    show Op.Then _ (dite _ _ _)
    split
    · trivial
    · rintro d a d' l' ⟨⟩
      trivial
  | finished => trivial

theorem inRange_then (t : cfg.Thread) (l : Pc t) (hl : InRange cfg t l) :
    ((threads cfg).op t l).Then (InRange cfg t) := by
  cases t with
  | cook id => exact cook_then id l hl
  | courier id => exact courier_then id l
  | main => exact main_then l hl

theorem inRange {s : cfg.State} (h : (pizzeria cfg).Reachable s) (t : cfg.Thread) :
    InRange cfg t (s.thread t) := by
  refine reachable_local ?_ inRange_then (fun t l l' _ hl => by cases hl) h t
  rintro _ ⟨buf, rfl⟩ t
  cases t <;> trivial

/-! ### Conservation laws -/

/-- The cook is at a table. -/
def CookPc.atTable : CookPc → ℤ
  | .cooking _ | .pushing _ _ | .leaving _ => 1
  | _ => 0

/-- The value of the call is in the buffer. -/
def PushPc.done : PushPc → ℤ
  | .postMutex | .postItems | .returned => 1
  | _ => 0

/-- How many of its `n` pizzas a cook has to push yet. -/
def CookPc.toPush (n : ℤ) : CookPc → ℤ
  | .unborn => n
  | .loop i | .cooking i => n - i
  | .pushing i pc => n - i - pc.done
  | .leaving i => n - i - 1
  | .returned => 0

/-- How many of the `K` stop values `main` has to push yet. -/
def MainPc.toPush (K : ℤ) : MainPc → ℤ
  | .createCook _ | .createCourier _ | .joinCook _ => K
  | .stop i => K - i
  | .pushing i pc => K - i - pc.done
  | .joinCourier _ | .finished => 0

/-- The courier has a pizza that is not counted as delivered. -/
def CourierPc.carrying (pc : CourierPc) : ℤ :=
  match pc with
  | .popping (.postMutex value) | .popping (.postSlots value) => if value < 0 then 0 else 1
  | .delivering _ | .counting _ => 1
  | _ => 0

/-- The courier has taken a stop value. -/
def CourierPc.stopped : CourierPc → ℤ
  | .popping (.postMutex value) | .popping (.postSlots value) => if value < 0 then 1 else 0
  | .returned => 1
  | _ => 0

/-- The courier holds `sem_stats_mutex`. -/
def CourierPc.counts : CourierPc → ℤ
  | .counting _ | .counted _ => 1
  | _ => 0

/-- How many entries of a history are stop values. -/
def stops {T : Type*} (h : List (T × ℤ)) : ℕ := h.countP fun e => e.2 < 0

/-- What a law adds up: semaphores, data, and program points of cooks, couriers
    and `main`. -/
structure Law (cfg : Config) where
  sem : Sem → ℤ := fun _ => 0
  data : cfg.Shared → ℤ := fun _ => 0
  cook : Fin cfg.P → CookPc → ℤ := fun _ _ => 0
  courier : Fin cfg.K → CourierPc → ℤ := fun _ _ => 0
  main : MainPc → ℤ := fun _ => 0

namespace Law

/-- Free tables and cooks at a table. -/
def tables : Law cfg where
  sem := unit .sem_tables
  cook _ := CookPc.atTable

/-- `sem_stats_mutex` and who holds it. -/
def stats : Law cfg where
  sem := unit .sem_stats_mutex
  courier _ := CourierPc.counts

/-- Values pushed and values to push. -/
def pushes : Law cfg where
  data d := d.queue_pizzas.pushed.length
  cook id := CookPc.toPush (cfg.pizzas_to_make id)
  main := MainPc.toPush cfg.K

/-- Stop values pushed and stop values to push. -/
def stopsPushed : Law cfg where
  data d := stops d.queue_pizzas.pushed
  main := MainPc.toPush cfg.K

/-- Stop values popped and couriers that have one. -/
def stopsTaken : Law cfg where
  data d := -stops d.queue_pizzas.popped
  courier _ := CourierPc.stopped

/-- Stop values popped by one courier. -/
def stopsTakenBy (c : Fin cfg.K) : Law cfg where
  data d := -stops (d.queue_pizzas.popped.filter fun e => e.1 = .courier c)
  courier id pc := if id = c then pc.stopped else 0

/-- Pizzas popped, delivered and on their way. -/
def deliveries : Law cfg where
  data d := d.delivered_total + stops d.queue_pizzas.popped - d.queue_pizzas.popped.length
  courier _ := CourierPc.carrying

/-- The weight of a program point. -/
def pc (law : Law cfg) : ∀ t : cfg.Thread, Pc t → ℤ
  | .cook id => law.cook id
  | .courier id => law.courier id
  | .main => law.main

/-- What the law adds up to. -/
def total (law : Law cfg) (s : cfg.State) : ℤ :=
  ∑ k, law.sem k * s.sem k + law.data s.data +
    (∑ id, law.cook id (cookPc s id) + ∑ id, law.courier id (courierPc s id) +
      law.main (mainPc s))

theorem value_eq (law : Law cfg) (s : cfg.State) : value law.sem law.data law.pc s = law.total s := by
  unfold value total
  rw [Thread.sum_eq]
  rfl

/-- The thread keeps the law at `l`. -/
def Kept (law : Law cfg) (t : cfg.Thread) (l : Pc t) (d : cfg.Shared) : Prop :=
  ((threads cfg).op t l).Delta law.sem law.data (law.pc t) l d (· = 0)

end Law

@[simp] theorem stops_nil {T : Type*} : stops ([] : List (T × ℤ)) = 0 := rfl

@[simp] theorem stops_snoc {T : Type*} (h : List (T × ℤ)) (t : T) (value : ℤ) :
    stops (h ++ [(t, value)]) = stops h + if value < 0 then 1 else 0 := by
  simp [stops, List.countP_cons]

theorem pizza_id_nonneg (id i : ℕ) : ¬ pizza_id id i < 0 := by
  unfold pizza_id
  omega

/-- The laws of the pizzeria. -/
inductive Law.Posted : Law cfg → Prop where
  | tables : Posted tables
  | stats : Posted stats
  | pushes : Posted pushes
  | stopsPushed : Posted stopsPushed
  | stopsTaken : Posted stopsTaken
  | stopsTakenBy (c : Fin cfg.K) : Posted (stopsTakenBy c)
  | deliveries : Posted deliveries

variable {law : Law cfg}

theorem cook_keeps (hlaw : law.Posted) (id : Fin cfg.P) (l : CookPc) (d : cfg.Shared)
    (hl : InRange cfg (.cook id) l) : law.Kept (.cook id) l d := by
  cases l with
  | unborn =>
    intro u d' l' hf
    obtain ⟨-, heq⟩ := Option.ite_none_right_eq_some.mp hf
    cases heq
    cases hlaw <;>
      simp [Law.tables, Law.stats, Law.pushes, Law.stopsPushed, Law.stopsTaken, Law.stopsTakenBy,
        Law.deliveries, Law.pc, CookPc.atTable, CookPc.toPush]
  | loop i =>
    have hi : i ≤ cfg.pizzas_to_make id := hl
    by_cases h : i < cfg.pizzas_to_make id
    · cases hlaw <;>
        simp [Law.Kept, threads, op, cook_thread, h, Op.Delta, Law.tables, Law.stats, Law.pushes,
          Law.stopsPushed, Law.stopsTaken, Law.stopsTakenBy, Law.deliveries, Law.pc,
          CookPc.atTable, CookPc.toPush, unit]
    · have heq : i = cfg.pizzas_to_make id := by omega
      cases hlaw <;>
        simp [Law.Kept, threads, op, cook_thread, heq, Op.Delta, goOn, Law.tables, Law.stats,
          Law.pushes, Law.stopsPushed, Law.stopsTaken, Law.stopsTakenBy, Law.deliveries, Law.pc,
          CookPc.atTable, CookPc.toPush]
  | pushing i pc =>
    cases hlaw <;> cases pc <;>
      simp [Law.Kept, threads, op, cook_thread, queue_push, Op.embed, Op.Delta, Law.tables,
        Law.stats, Law.pushes, Law.stopsPushed, Law.stopsTaken, Law.stopsTakenBy, Law.deliveries,
        Law.pc, CookPc.atTable, CookPc.toPush, CookPc.push, PushPc.done, unit, Shared.setQueue,
        PizzaQueue.store, pizza_id_nonneg]
  | leaving i =>
    have hloop : (cfg.pizzas_to_make id : ℤ) - (i + 1) - (cfg.pizzas_to_make id - i - 1) = 0 := by
      ring
    cases hlaw <;>
      simp [Law.Kept, threads, op, cook_thread, Op.Delta, Law.tables, Law.stats, Law.pushes,
        Law.stopsPushed, Law.stopsTaken, Law.stopsTakenBy, Law.deliveries, Law.pc, CookPc.atTable,
        CookPc.toPush, unit, hloop]
  | cooking i | returned =>
    cases hlaw <;>
      simp [Law.Kept, threads, op, cook_thread, Op.Delta, goOn, Law.tables, Law.stats, Law.pushes,
        Law.stopsPushed, Law.stopsTaken, Law.stopsTakenBy, Law.deliveries, Law.pc, CookPc.atTable,
        CookPc.toPush, CookPc.push, PushPc.done]

theorem courier_keeps (hlaw : law.Posted) (id : Fin cfg.K) (l : CourierPc) (d : cfg.Shared) :
    law.Kept (.courier id) l d := by
  cases l with
  | unborn =>
    intro u d' l' hf
    obtain ⟨-, heq⟩ := Option.ite_none_right_eq_some.mp hf
    cases heq
    cases hlaw <;>
      simp [Law.tables, Law.stats, Law.pushes, Law.stopsPushed, Law.stopsTaken, Law.stopsTakenBy,
        Law.deliveries, Law.pc, CourierPc.counts, CourierPc.carrying, CourierPc.stopped]
  | popping pc =>
    cases pc with
    | load =>
      -- a stop value counts in both sums of the deliveries
      have hstop : ∀ a b c : ℤ, a + (b + 1) - (c + 1) - (a + b - c) = 0 := by
        intro a b c
        ring
      cases hlaw with
      | stopsTakenBy c =>
        by_cases hv : d.queue_pizzas.front < 0 <;> by_cases hc : id = c <;>
          simp [Law.Kept, threads, op, courier_thread, queue_pop, Op.embed, Op.Delta,
            Law.stopsTakenBy, Law.pc, CourierPc.stopped, CourierPc.pop, Shared.setQueue,
            PizzaQueue.load, List.filter_append, hv, hc]
      | tables | stats | pushes | stopsPushed | stopsTaken | deliveries =>
        by_cases hv : d.queue_pizzas.front < 0 <;>
          simp [Law.Kept, threads, op, courier_thread, queue_pop, Op.embed, Op.Delta, Law.tables,
            Law.stats, Law.pushes, Law.stopsPushed, Law.stopsTaken, Law.deliveries, Law.pc,
            CourierPc.counts, CourierPc.carrying, CourierPc.stopped, CourierPc.pop,
            Shared.setQueue, PizzaQueue.load, hv, hstop]
    | postSlots value =>
      by_cases hv : value < 0 <;> cases hlaw <;>
        simp [Law.Kept, threads, op, courier_thread, queue_pop, Op.embed, Op.Delta, Law.tables,
          Law.stats, Law.pushes, Law.stopsPushed, Law.stopsTaken, Law.stopsTakenBy,
          Law.deliveries, Law.pc, CourierPc.counts, CourierPc.carrying, CourierPc.stopped,
          CourierPc.pop, unit, hv]
    | waitItems | waitMutex | postMutex | returned =>
      cases hlaw <;>
        simp [Law.Kept, threads, op, courier_thread, queue_pop, Op.embed, Op.Delta, Law.tables,
          Law.stats, Law.pushes, Law.stopsPushed, Law.stopsTaken, Law.stopsTakenBy,
          Law.deliveries, Law.pc, CourierPc.counts, CourierPc.carrying, CourierPc.stopped,
          CourierPc.pop, unit]
  | loop | delivering value | counting value | counted value | returned =>
    cases hlaw <;>
      simp [Law.Kept, threads, op, courier_thread, Op.Delta, goOn, Law.tables, Law.stats,
        Law.pushes, Law.stopsPushed, Law.stopsTaken, Law.stopsTakenBy, Law.deliveries, Law.pc,
        CourierPc.counts, CourierPc.carrying, CourierPc.stopped, CourierPc.pop, unit]

theorem main_keeps (hlaw : law.Posted) (l : MainPc) (d : cfg.Shared) (hl : InRange cfg .main l) :
    law.Kept .main l d := by
  cases l with
  | createCook i | createCourier i =>
    intro u d' l' hf
    simp only at hf
    split at hf <;>
    · cases hf
      cases hlaw <;>
        simp [Law.tables, Law.stats, Law.pushes, Law.stopsPushed, Law.stopsTaken,
          Law.stopsTakenBy, Law.deliveries, Law.pc, MainPc.toPush, Shared.create]
  | joinCook i =>
    by_cases h : i < cfg.P <;> cases hlaw <;>
      simp [Law.Kept, threads, op, main, h, Op.Delta, goOn, Law.tables, Law.stats, Law.pushes,
        Law.stopsPushed, Law.stopsTaken, Law.stopsTakenBy, Law.deliveries, Law.pc, MainPc.toPush]
  | stop i =>
    have hi : i ≤ cfg.K := hl
    by_cases h : i < cfg.K
    · cases hlaw <;>
        simp [Law.Kept, threads, op, main, h, Op.Delta, goOn, Law.tables, Law.stats, Law.pushes,
          Law.stopsPushed, Law.stopsTaken, Law.stopsTakenBy, Law.deliveries, Law.pc,
          MainPc.toPush, MainPc.push, PushPc.done]
    · have heq : i = cfg.K := by omega
      cases hlaw <;>
        simp [Law.Kept, threads, op, main, heq, Op.Delta, goOn, Law.tables, Law.stats, Law.pushes,
          Law.stopsPushed, Law.stopsTaken, Law.stopsTakenBy, Law.deliveries, Law.pc,
          MainPc.toPush]
  | pushing i pc =>
    have hloop : (cfg.K : ℤ) - (i + 1) - (cfg.K - i - 1) = 0 := by ring
    cases hlaw <;> cases pc <;>
      simp [Law.Kept, threads, op, main, queue_push, Op.embed, Op.Delta, Law.tables,
        Law.stats, Law.pushes, Law.stopsPushed, Law.stopsTaken, Law.stopsTakenBy, Law.deliveries,
        Law.pc, MainPc.toPush, MainPc.push, PushPc.done, unit, Shared.setQueue,
        PizzaQueue.store, hloop]
  | joinCourier i =>
    by_cases h : i < cfg.K <;> cases hlaw <;>
      simp [Law.Kept, threads, op, main, h, Op.Delta, goOn, Law.tables, Law.stats, Law.pushes,
        Law.stopsPushed, Law.stopsTaken, Law.stopsTakenBy, Law.deliveries, Law.pc, MainPc.toPush]
  | finished =>
    simp [Law.Kept, threads, op, main, Op.Delta]

/-- Every law holds in every reachable state. -/
theorem Law.conserved (hlaw : law.Posted) {s : cfg.State} (h : (pizzeria cfg).Reachable s) :
    ∃ buf, law.total s = law.total (init cfg buf) := by
  have hkeep : ∀ t l d, InRange cfg t l → law.Kept t l d := by
    intro t l d hl
    cases t with
    | cook id => exact cook_keeps hlaw id l d hl
    | courier id => exact courier_keeps hlaw id l d
    | main => exact main_keeps hlaw l d hl
  obtain ⟨_, ⟨buf, rfl⟩, hvalue⟩ := Semaphore.conserved (fun _ => inRange) hkeep
    (fun t l l' _ hl => by cases hl) h
  rw [law.value_eq, law.value_eq] at hvalue
  exact ⟨buf, hvalue⟩

/-- The conservation laws of the pizzeria. -/
structure Books (cfg : Config) (s : cfg.State) : Prop where
  tables : (s.sem .sem_tables : ℤ) + ∑ id, (cookPc s id).atTable = cfg.N_tables
  stats : (s.sem .sem_stats_mutex : ℤ) + ∑ id, (courierPc s id).counts = 1
  pushes : (s.data.queue_pizzas.pushed.length : ℤ) +
    ∑ id, (cookPc s id).toPush (cfg.pizzas_to_make id) + (mainPc s).toPush cfg.K =
      cfg.total_pizzas + cfg.K
  stopsPushed : (stops s.data.queue_pizzas.pushed : ℤ) + (mainPc s).toPush cfg.K = cfg.K
  stopsTaken : (stops s.data.queue_pizzas.popped : ℤ) = ∑ id, (courierPc s id).stopped
  stopsTakenBy : ∀ c, (stops (s.data.queue_pizzas.popped.filter fun e => e.1 = .courier c) : ℤ) =
    (courierPc s c).stopped
  deliveries : (s.data.delivered_total : ℤ) + ∑ id, (courierPc s id).carrying =
    s.data.queue_pizzas.popped.length - stops s.data.queue_pizzas.popped

theorem books {s : cfg.State} (h : (pizzeria cfg).Reachable s) :
    Books cfg s := by
  constructor
  case tables =>
    obtain ⟨buf, htotal⟩ := Law.conserved .tables h
    simpa [Law.total, Law.tables, init, semInit, cookPc, CookPc.atTable] using htotal
  case stats =>
    obtain ⟨buf, htotal⟩ := Law.conserved .stats h
    simpa [Law.total, Law.stats, init, semInit, courierPc, CourierPc.counts] using htotal
  case pushes =>
    obtain ⟨buf, htotal⟩ := Law.conserved .pushes h
    simpa [Law.total, Law.pushes, init, cookPc, mainPc, CookPc.toPush, MainPc.toPush,
      Config.total_pizzas, add_assoc] using htotal
  case stopsPushed =>
    obtain ⟨buf, htotal⟩ := Law.conserved .stopsPushed h
    simpa [Law.total, Law.stopsPushed, init, mainPc, MainPc.toPush] using htotal
  case stopsTaken =>
    obtain ⟨buf, htotal⟩ := Law.conserved .stopsTaken h
    have hsum : -(stops s.data.queue_pizzas.popped : ℤ) + ∑ id, (courierPc s id).stopped = 0 := by
      simpa [Law.total, Law.stopsTaken, init, courierPc, CourierPc.stopped] using htotal
    omega
  case stopsTakenBy =>
    intro c
    obtain ⟨buf, htotal⟩ := Law.conserved (.stopsTakenBy c) h
    have hsum : -(stops (s.data.queue_pizzas.popped.filter fun e => e.1 = .courier c) : ℤ) +
        (courierPc s c).stopped = 0 := by
      simpa [Law.total, Law.stopsTakenBy, init, courierPc, CourierPc.stopped] using htotal
    omega
  case deliveries =>
    obtain ⟨buf, htotal⟩ := Law.conserved .deliveries h
    have hsum : (s.data.delivered_total : ℤ) + stops s.data.queue_pizzas.popped -
        s.data.queue_pizzas.popped.length + ∑ id, (courierPc s id).carrying = 0 := by
      simpa [Law.total, Law.deliveries, init, courierPc, CourierPc.carrying] using htotal
    omega

end Pizzeria
