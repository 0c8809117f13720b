import OsLessons.PizzaHoare.Model

/-! # The kitchen: conservation and clean end

  Tables, pizzas and cooks are counted by the monitor and by the places of the
  threads. A courier is sent home only when no cook is left and nothing is
  ready, and both stay so.
-/

namespace PizzaHoare

open Lts Monitor

variable {cfg : Config}

/-! ### The mutex -/

/-- At the head of its loop a cook is about to lock. -/
theorem cook_loop_lock (n i : ℕ) : ∃ l, cook_thread n (.loop i) = .lock l := by
  by_cases h : i < n
  · exact ⟨_, if_pos h⟩
  · exact ⟨_, if_neg h⟩

theorem cook_loop_outside (n i : ℕ) : ¬ (cook_thread n (.loop i)).Inside := by
  obtain ⟨l, hlock⟩ := cook_loop_lock n i
  rw [hlock]
  exact fun h => h

/-- Behind the critical section at its start a cook is out of the mutex. -/
theorem start_cooking_outside (n i : ℕ) (k : Kitchen) :
    ¬ (cook_thread n (kitchen_start_cooking i k).next).Inside := by
  unfold kitchen_start_cooking
  split
  · exact cook_loop_outside n i
  · exact fun h => h

theorem start_cooking_sleeps {i : ℕ} {k : Kitchen} {c : Cond}
    (h : (kitchen_start_cooking i k).sleep = some c) :
    (kitchen_start_cooking i k).next = .loop i := by
  unfold kitchen_start_cooking at h ⊢
  split at h
  · next hfull => rw [if_pos hfull]
  · cases h

theorem take_pizza_outside (taken : ℕ) (k : Kitchen) :
    ¬ (courier_thread (kitchen_take_pizza taken k).next).Inside := by
  unfold kitchen_take_pizza
  split
  · exact fun h => h
  · split <;> exact fun h => h

theorem take_pizza_sleeps {taken : ℕ} {k : Kitchen} {c : Cond}
    (h : (kitchen_take_pizza taken k).sleep = some c) :
    (kitchen_take_pizza taken k).next = .loop taken := by
  unfold kitchen_take_pizza at h ⊢
  split at h
  · next hnone => rw [if_pos hnone]
  · split at h <;> cases h

theorem op_disciplined (cfg : Config) : Disciplined (op cfg) where
  call t l k w a w' l' hop hk := by
    cases t with
    | cook id =>
      cases l with
      | loop i =>
        obtain ⟨l₁, hlock⟩ := cook_loop_lock (cfg.pizzas_to_make id) i
        cases hlock.symm.trans hop
      | starting | cooking | finishing | leaving | returned => cases hop
    | courier id =>
      cases l with
      | delivering taken =>
        cases hop
        cases hk
        exact fun h => h
      | loop | taking | returned => cases hop
  lock t l l' hop := by
    cases t with
    | cook id =>
      cases l with
      | loop i =>
        simp only [op, cook_thread] at hop
        split at hop <;>
        · cases hop
          trivial
      | cooking i =>
        cases hop
        trivial
      | starting | finishing | leaving | returned => cases hop
    | courier id =>
      cases l with
      | loop taken =>
        cases hop
        trivial
      | taking | delivering | returned => cases hop
  leave t l k d hop := by
    cases t with
    | cook id =>
      cases l with
      | starting i =>
        cases hop
        exact start_cooking_outside _ i d
      | finishing i =>
        cases hop
        exact cook_loop_outside _ (i + 1)
      | leaving =>
        cases hop
        exact fun h => h
      | loop i =>
        obtain ⟨l₁, hlock⟩ := cook_loop_lock (cfg.pizzas_to_make id) i
        cases hlock.symm.trans hop
      | cooking | returned => cases hop
    | courier id =>
      cases l with
      | taking taken =>
        cases hop
        exact take_pizza_outside taken d
      | loop | delivering | returned => cases hop
  sleep t l k d c hop hsleep := by
    cases t with
    | cook id =>
      cases l with
      | starting i =>
        cases hop
        rw [start_cooking_sleeps hsleep]
        exact cook_loop_lock _ i
      | finishing | leaving =>
        cases hop
        cases hsleep
      | loop i =>
        obtain ⟨l₁, hlock⟩ := cook_loop_lock (cfg.pizzas_to_make id) i
        cases hlock.symm.trans hop
      | cooking | returned => cases hop
    | courier id =>
      cases l with
      | taking taken =>
        cases hop
        rw [take_pizza_sleeps hsleep]
        exact ⟨_, rfl⟩
      | loop | delivering | returned => cases hop

theorem owned {s : cfg.State} (h : (kitchen cfg).Reachable s) : Owned (op cfg) s := by
  apply reachable_owned (op_disciplined cfg) _ h
  rintro _ rfl
  constructor
  · intro t
    cases t with
    | cook id =>
      obtain ⟨l₁, hlock⟩ := cook_loop_lock (cfg.pizzas_to_make id) 0
      have hop : op cfg (.cook id) ((init cfg).thread (.cook id)) = .lock l₁ := hlock
      rw [hop]
      exact iff_of_false (fun h => h) (by simp [init])
    | courier id => exact iff_of_false (fun h => h) (by simp [init])
  · intro t c ht
    cases ht

/-! ### Loop indices -/

/-- The index of the loop is in its range. -/
def InRange (cfg : Config) : ∀ t : cfg.Thread, Pc t → Prop
  | .cook id, .loop i => i ≤ cfg.pizzas_to_make id
  | .cook id, .starting i | .cook id, .cooking i | .cook id, .finishing i =>
      i < cfg.pizzas_to_make id
  | _, _ => True

theorem inRange_then (t : cfg.Thread) (l : Pc t) (hl : InRange cfg t l) :
    (op cfg t l).Then (InRange cfg t) := by
  cases t with
  | cook id =>
    cases l with
    | loop i =>
      by_cases h : i < cfg.pizzas_to_make id
      · simp only [op, cook_thread, h, ↓reduceIte]
        exact h
      · simp only [op, cook_thread, h, ↓reduceIte]
        trivial
    | starting i =>
      have hi : i < cfg.pizzas_to_make id := hl
      intro k
      show InRange cfg (.cook id) (kitchen_start_cooking i k).next
      unfold kitchen_start_cooking
      split
      · exact hi.le
      · exact hi
    | cooking i => exact hl
    | finishing i =>
      intro k
      exact hl
    | leaving =>
      intro k
      trivial
    | returned => trivial
  | courier id =>
    cases l with
    | delivering taken =>
      intro w a w' l' _
      trivial
    | taking taken =>
      intro k
      trivial
    | loop | returned => trivial

theorem inRange {s : cfg.State} (h : (kitchen cfg).Reachable s) (t : cfg.Thread) :
    InRange cfg t (s.thread t) := by
  refine reachable_local ?_ inRange_then h t
  rintro _ rfl t
  cases t with
  | cook id => exact Nat.zero_le _
  | courier id => trivial

/-! ### Conservation laws -/

/-- The cook is between `kitchen_start_cooking` and `kitchen_finish_cooking`. -/
def CookPc.atTable : CookPc → ℤ
  | .cooking _ | .finishing _ => 1
  | _ => 0

/-- How many of its `n` pizzas the cook has finished. -/
def CookPc.finished (n : ℕ) : CookPc → ℤ
  | .loop i | .starting i | .cooking i | .finishing i => i
  | .leaving | .returned => n

/-- The cook has not called `kitchen_cook_done`. -/
def CookPc.active : CookPc → ℤ
  | .returned => 0
  | _ => 1

def CourierPc.taken : CourierPc → ℤ
  | .loop taken | .taking taken | .delivering taken | .returned taken => taken

/-- A weight of program points, by thread. -/
def weigh (cook : Fin cfg.P → CookPc → ℤ) (courier : CourierPc → ℤ) : ∀ t : cfg.Thread, Pc t → ℤ
  | .cook id => cook id
  | .courier _ => courier

theorem value_weigh (f : Kitchen → ℤ) (cook : Fin cfg.P → CookPc → ℤ) (courier : CourierPc → ℤ)
    (s : cfg.State) : value f (weigh cook courier) s =
      f s.data + (∑ id, cook id (cookPc s id) + ∑ id, courier (courierPc s id)) := by
  unfold value
  rw [Thread.sum_eq]
  rfl

theorem cook_keeps (id : Fin cfg.P) (l : CookPc) (k : Kitchen)
    (hl : InRange cfg (.cook id) l) :
    (cook_thread (cfg.pizzas_to_make id) l).Keeps Kitchen.free_tables CookPc.atTable l k ∧
    (cook_thread (cfg.pizzas_to_make id) l).Keeps Kitchen.ready_pizzas
      (fun pc => -pc.finished (cfg.pizzas_to_make id)) l k ∧
    (cook_thread (cfg.pizzas_to_make id) l).Keeps Kitchen.active_cooks
      (fun pc => -pc.active) l k := by
  cases l with
  | loop i =>
    have hi : i ≤ cfg.pizzas_to_make id := hl
    by_cases h : i < cfg.pizzas_to_make id
    · simp [cook_thread, h, Op.Keeps, CookPc.atTable, CookPc.finished, CookPc.active]
    · have heq : cfg.pizzas_to_make id = i := by omega
      simp [cook_thread, heq, Op.Keeps, CookPc.atTable, CookPc.finished, CookPc.active]
  | starting i =>
    by_cases h : k.free_tables = 0 <;>
      simp [cook_thread, kitchen_start_cooking, h, Op.Keeps, CookPc.atTable, CookPc.finished,
        CookPc.active]
  | finishing i =>
    simp [cook_thread, kitchen_finish_cooking, Op.Keeps, CookPc.atTable, CookPc.finished,
      CookPc.active]
  | leaving =>
    simp [cook_thread, kitchen_cook_done, Op.Keeps, CookPc.atTable, CookPc.finished, CookPc.active,
      sub_eq_add_neg]
  | cooking | returned =>
    simp [cook_thread, Op.Keeps, CookPc.atTable, CookPc.finished, CookPc.active]

theorem courier_keeps (l : CourierPc) (k : Kitchen) :
    (courier_thread l).Keeps Kitchen.free_tables (fun _ => 0) l k ∧
    (courier_thread l).Keeps Kitchen.ready_pizzas CourierPc.taken l k ∧
    (courier_thread l).Keeps Kitchen.active_cooks (fun _ => 0) l k := by
  cases l with
  | taking taken =>
    by_cases h₁ : k.ready_pizzas = 0 ∧ k.active_cooks > 0
    · simp [courier_thread, kitchen_take_pizza, h₁, Op.Keeps, CourierPc.taken]
    · by_cases h₂ : k.ready_pizzas = 0 ∧ k.active_cooks = 0
      · simp [courier_thread, kitchen_take_pizza, h₂, Op.Keeps, CourierPc.taken]
      · simp [courier_thread, kitchen_take_pizza, h₁, h₂, Op.Keeps, CourierPc.taken]
  | loop | delivering | returned => simp [courier_thread, Op.Keeps, CourierPc.taken]

/-- What the monitor counts is where the threads are. -/
structure Books (cfg : Config) (s : cfg.State) : Prop where
  tables : s.data.free_tables + ∑ id, (cookPc s id).atTable = cfg.N_tables
  pizzas : s.data.ready_pizzas + ∑ id, (courierPc s id).taken =
    ∑ id, (cookPc s id).finished (cfg.pizzas_to_make id)
  cooks : s.data.active_cooks = ∑ id, (cookPc s id).active

theorem books {s : cfg.State} (h : (kitchen cfg).Reachable s) : Books cfg s := by
  have hkeeps : ∀ (f : Kitchen → ℤ) (cook : Fin cfg.P → CookPc → ℤ) (courier : CourierPc → ℤ),
      (∀ id l k, InRange cfg (.cook id) l →
        (cook_thread (cfg.pizzas_to_make id) l).Keeps f (cook id) l k) →
      (∀ l k, (courier_thread l).Keeps f courier l k) →
      value f (weigh cook courier) s = value f (weigh cook courier) (init cfg) := by
    intro f cook courier hcook hcourier
    obtain ⟨_, rfl, hvalue⟩ := conserved (f := f) (w := weigh cook courier) (fun _ => inRange)
      (fun t l k hl => by
        cases t with
        | cook id => exact hcook id l k hl
        | courier id => exact hcourier l k) h
    exact hvalue
  constructor
  · have hvalue := hkeeps _ _ _ (fun id l k hl => (cook_keeps id l k hl).1)
      (fun l k => (courier_keeps l k).1)
    rw [value_weigh, value_weigh] at hvalue
    simpa [init, kitchen_init, cookPc, CookPc.atTable] using hvalue
  · have hvalue := hkeeps _ _ _ (fun id l k hl => (cook_keeps id l k hl).2.1)
      (fun l k => (courier_keeps l k).2.1)
    rw [value_weigh, value_weigh] at hvalue
    simp only [init, kitchen_init, cookPc, courierPc, CookPc.finished, CourierPc.taken,
      Finset.sum_neg_distrib, Nat.cast_zero, Finset.sum_const_zero, neg_zero, add_zero] at hvalue ⊢
    omega
  · have hvalue := hkeeps _ _ _ (fun id l k hl => (cook_keeps id l k hl).2.2)
      (fun l k => (courier_keeps l k).2.2)
    rw [value_weigh, value_weigh] at hvalue
    simp only [init, kitchen_init, cookPc, CookPc.active, Finset.sum_neg_distrib,
      Finset.sum_const_zero, add_zero, Finset.sum_const, Finset.card_univ, Fintype.card_fin,
      nsmul_eq_mul, mul_one] at hvalue ⊢
    omega

/-! ### Nobody is sent home too early -/

/-- The counters are not negative, and a courier that was sent home left nothing. -/
structure Sound (s : cfg.State) : Prop where
  free : 0 ≤ s.data.free_tables
  ready : 0 ≤ s.data.ready_pizzas
  home : ∀ id taken, courierPc s id = .returned taken →
    s.data.ready_pizzas = 0 ∧ s.data.active_cooks = 0

theorem active_nonneg (pc : CookPc) : 0 ≤ pc.active := by
  unfold CookPc.active
  split <;> decide

/-- As long as a cook runs, `active_cooks` is positive. -/
theorem Books.active_pos {s : cfg.State} (hs : Books cfg s) {id : Fin cfg.P}
    (hid : cookPc s id ≠ .returned) : 0 < s.data.active_cooks := by
  rw [hs.cooks]
  have hone : (cookPc s id).active = 1 := by
    cases hpc : cookPc s id with
    | returned => exact absurd hpc hid
    | loop | starting | cooking | finishing | leaving => rfl
  have hle := Finset.single_le_sum (f := fun id => (cookPc s id).active)
    (fun id _ => active_nonneg _) (Finset.mem_univ id)
  simp only [hone] at hle
  omega

/-- Without active cooks all of them have returned. -/
theorem Books.cooks_returned {s : cfg.State} (hs : Books cfg s) (h : s.data.active_cooks = 0)
    (id : Fin cfg.P) : cookPc s id = .returned := by
  by_contra hid
  have := hs.active_pos hid
  omega

/-- What a cook does to the counters, and where it goes. -/
inductive CookMove (n : ℕ) (k k' : Kitchen) : CookPc → CookPc → Prop where
  | enter {i} : i < n → k' = k → CookMove n k k' (.loop i) (.starting i)
  | quit {i} : k' = k → CookMove n k k' (.loop i) .leaving
  | wait {i} : k.free_tables = 0 → k' = k → CookMove n k k' (.starting i) (.loop i)
  | start {i} : k.free_tables ≠ 0 → k' = { k with free_tables := k.free_tables - 1 } →
      CookMove n k k' (.starting i) (.cooking i)
  | ready {i} : k' = k → CookMove n k k' (.cooking i) (.finishing i)
  | finish {i} : k' = (kitchen_finish_cooking i k).data →
      CookMove n k k' (.finishing i) (.loop (i + 1))
  | leave : k' = (kitchen_cook_done k).data → CookMove n k k' .leaving .returned

/-- What a courier does to the counters, and where it goes. -/
inductive CourierMove (k k' : Kitchen) : CourierPc → CourierPc → Prop where
  | enter {taken} : k' = k → CourierMove k k' (.loop taken) (.taking taken)
  | wait {taken} : k' = k → CourierMove k k' (.taking taken) (.loop taken)
  | home {taken} : k.ready_pizzas = 0 → k.active_cooks = 0 → k' = k →
      CourierMove k k' (.taking taken) (.returned taken)
  | take {taken} : ¬ (k.ready_pizzas = 0 ∧ k.active_cooks > 0) →
      ¬ (k.ready_pizzas = 0 ∧ k.active_cooks = 0) →
      k' = { k with ready_pizzas := k.ready_pizzas - 1 } →
      CourierMove k k' (.taking taken) (.delivering (taken + 1))
  | deliver {taken} : k' = k → CourierMove k k' (.delivering taken) (.loop taken)

theorem cook_leads {n : ℕ} {l l' : CookPc} {s s' : cfg.State}
    (h : (cook_thread n l).Leads s s' l') : CookMove n s.data s'.data l l' := by
  cases l with
  | loop i =>
    by_cases hi : i < n
    · simp only [cook_thread, hi, ↓reduceIte] at h
      obtain ⟨hdata, rfl⟩ := h
      exact .enter hi hdata
    · simp only [cook_thread, hi, ↓reduceIte] at h
      obtain ⟨hdata, rfl⟩ := h
      exact .quit hdata
  | starting i =>
    obtain ⟨hdata, rfl⟩ := h
    unfold kitchen_start_cooking at hdata ⊢
    split at hdata
    · next hfull =>
      rw [if_pos hfull]
      exact .wait hfull hdata
    · next hfree =>
      rw [if_neg hfree]
      exact .start hfree hdata
  | cooking i =>
    obtain ⟨hdata, rfl⟩ := h
    exact .ready hdata
  | finishing i =>
    obtain ⟨hdata, rfl⟩ := h
    exact .finish hdata
  | leaving =>
    obtain ⟨hdata, rfl⟩ := h
    exact .leave hdata
  | returned => exact h.elim

theorem courier_leads {l l' : CourierPc} {s s' : cfg.State}
    (h : (courier_thread l).Leads s s' l') : CourierMove s.data s'.data l l' := by
  cases l with
  | loop taken =>
    obtain ⟨hdata, rfl⟩ := h
    exact .enter hdata
  | taking taken =>
    obtain ⟨hdata, rfl⟩ := h
    unfold kitchen_take_pizza at hdata ⊢
    split at hdata
    · next hwait =>
      rw [if_pos hwait]
      exact .wait hdata
    · next hgo =>
      rw [if_neg hgo]
      split at hdata
      · next hhome =>
        rw [if_pos hhome]
        exact .home hhome.1 hhome.2 hdata
      · next htake =>
        rw [if_neg htake]
        exact .take hgo htake hdata
  | delivering taken =>
    obtain ⟨hdata, a, w, hcall⟩ := h
    cases hcall
    exact .deliver hdata
  | returned => exact h.elim

/-- What a step can be: one thread moves, or nobody does. -/
inductive Move (cfg : Config) (s s' : cfg.State) : Prop where
  | none : s'.data = s.data → courierPc s' = courierPc s → Move cfg s s'
  | cook (id : Fin cfg.P) : courierPc s' = courierPc s →
      CookMove (cfg.pizzas_to_make id) s.data s'.data (cookPc s id) (cookPc s' id) → Move cfg s s'
  | courier (id : Fin cfg.K) : (∀ id' ≠ id, courierPc s' id' = courierPc s id') →
      CourierMove s.data s'.data (courierPc s id) (courierPc s' id) → Move cfg s s'

theorem move_of_step {s s' : cfg.State} {e : Event cfg.Thread Unit}
    (h : Step (op cfg) s e s') : Move cfg s s' := by
  rcases h.leads with ⟨hdata, hthread⟩ | ⟨t, hframe, hleads⟩
  · refine .none hdata ?_
    funext id
    exact congrFun hthread (.courier id)
  · cases t with
    | cook id =>
      refine .cook id ?_ (cook_leads hleads)
      funext c
      exact hframe (.courier c) (by simp)
    | courier id =>
      refine .courier id ?_ (courier_leads hleads)
      intro c hne
      exact hframe (.courier c) (by simpa using hne)

theorem sound_step {s s' : cfg.State} (hs : Sound s) (hbooks : Books cfg s)
    (h : Move cfg s s') : Sound s' := by
  obtain ⟨hfree, hready, hhome⟩ := hs
  cases h with
  | none hdata hpc =>
    constructor
    · rwa [hdata]
    · rwa [hdata]
    · rwa [hdata, hpc]
  | cook id hpc hmove =>
    -- nobody has been sent home while this cook runs
    have hrunning : cookPc s id ≠ .returned → ∀ c taken, courierPc s' c ≠ .returned taken := by
      intro hid c taken hc
      rw [hpc] at hc
      have := hbooks.active_pos hid
      have := (hhome c taken hc).2
      omega
    generalize cookPc s id = l at hmove hrunning
    generalize cookPc s' id = l' at hmove
    cases hmove with
    | enter _ hdata | quit hdata | wait _ hdata | ready hdata =>
      constructor
      · rwa [hdata]
      · rwa [hdata]
      · rwa [hdata, hpc]
    | start hne hdata =>
      refine ⟨?_, ?_, fun c taken hc => absurd hc (hrunning (by simp) c taken)⟩
      · rw [hdata]
        show 0 ≤ s.data.free_tables - 1
        omega
      · rwa [hdata]
    | finish hdata =>
      refine ⟨?_, ?_, fun c taken hc => absurd hc (hrunning (by simp) c taken)⟩
      · rw [hdata]
        show 0 ≤ s.data.free_tables + 1
        omega
      · rw [hdata]
        show 0 ≤ s.data.ready_pizzas + 1
        omega
    | leave hdata =>
      refine ⟨?_, ?_, fun c taken hc => absurd hc (hrunning (by simp) c taken)⟩
      · rwa [hdata]
      · rwa [hdata]
  | courier id hother hmove =>
    have hactive : 0 ≤ s.data.active_cooks := by
      rw [hbooks.cooks]
      exact Finset.sum_nonneg fun id _ => active_nonneg _
    -- who is at home now and is not this courier was at home before
    have hstay : (∀ taken, courierPc s' id ≠ .returned taken) → ∀ c taken,
        courierPc s' c = .returned taken →
          s.data.ready_pizzas = 0 ∧ s.data.active_cooks = 0 := by
      intro hid c taken hc
      have hne : c ≠ id := by
        rintro rfl
        exact hid taken hc
      rw [hother c hne] at hc
      exact hhome c taken hc
    generalize courierPc s id = l at hmove
    generalize courierPc s' id = l' at hmove hstay
    cases hmove with
    | enter hdata | wait hdata | deliver hdata =>
      constructor
      · rwa [hdata]
      · rwa [hdata]
      · rw [hdata]
        exact hstay (by simp)
    | home hnone hcooks hdata =>
      constructor
      · rwa [hdata]
      · rwa [hdata]
      · rw [hdata]
        exact fun _ _ _ => ⟨hnone, hcooks⟩
    | take hgo hleft hdata =>
      have hpos : 0 < s.data.ready_pizzas := by omega
      refine ⟨?_, ?_, ?_⟩
      · rwa [hdata]
      · rw [hdata]
        show 0 ≤ s.data.ready_pizzas - 1
        omega
      · intro c taken hc
        have := (hstay (by simp) c taken hc).1
        omega

theorem sound {s : cfg.State} (h : (kitchen cfg).Reachable s) : Sound s := by
  apply System.invariant_of (fun _ => books) _ _ h
  · rintro _ rfl
    exact ⟨Int.natCast_nonneg _, le_refl _, fun _ _ hc => by cases hc⟩
  · intro s e s' hbooks hs hstep
    exact sound_step hs hbooks (move_of_step hstep)

/-! ### Conservation -/

/-- The cook has a table. -/
def AtTable (pc : CookPc) : Prop := pc.atTable = 1

instance (pc : CookPc) : Decidable (AtTable pc) := inferInstanceAs (Decidable (_ = _))

theorem sum_atTable (s : cfg.State) : ∑ id, (cookPc s id).atTable =
    (Finset.univ.filter fun id => AtTable (cookPc s id)).card := by
  rw [Finset.card_filter]
  push_cast
  apply Finset.sum_congr rfl
  intro id _
  unfold AtTable
  cases cookPc s id <;> rfl

theorem sum_active (s : cfg.State) : ∑ id, (cookPc s id).active =
    (Finset.univ.filter fun id => cookPc s id ≠ .returned).card := by
  rw [Finset.card_filter]
  push_cast
  apply Finset.sum_congr rfl
  intro id _
  cases cookPc s id <;> rfl

/-- **Conservation and clean end**: tables, pizzas and cooks are where the
    counters say, and a courier is sent home only when every cook has returned
    and all pizzas have been taken. -/
theorem conservation (cfg : Config) (s : cfg.State) (h : (kitchen cfg).Reachable s) :
    (s.owner = none →
      s.data.free_tables + (Finset.univ.filter fun id => AtTable (cookPc s id)).card =
        cfg.N_tables ∧
      0 ≤ s.data.free_tables ∧
      s.data.ready_pizzas + ∑ id, (courierPc s id).taken =
        ∑ id, (cookPc s id).finished (cfg.pizzas_to_make id) ∧
      0 ≤ s.data.ready_pizzas ∧
      s.data.active_cooks = (Finset.univ.filter fun id => cookPc s id ≠ .returned).card) ∧
    (∀ c taken, courierPc s c = .returned taken →
      (∀ id, cookPc s id = .returned) ∧ ∑ id, (courierPc s id).taken = cfg.total_pizzas) := by
  have hbooks := books h
  have hsound := sound h
  constructor
  · intro _
    rw [← sum_atTable, ← sum_active]
    exact ⟨hbooks.tables, hsound.free, hbooks.pizzas, hsound.ready, hbooks.cooks⟩
  · intro c taken hc
    obtain ⟨hnone, hcooks⟩ := hsound.home c taken hc
    have hreturned := hbooks.cooks_returned hcooks
    refine ⟨hreturned, ?_⟩
    have hpizzas := hbooks.pizzas
    simp only [hreturned, CookPc.finished] at hpizzas
    unfold Config.total_pizzas
    push_cast
    omega

/-- One table, one cook with one pizza, one courier. -/
def soloConfig : Config where
  N_tables := 1
  P := 1
  K := 1
  pizzas_to_make _ := 1

def soloCook : soloConfig.Thread := .cook ⟨0, by decide⟩
def soloCourier : soloConfig.Thread := .courier ⟨0, by decide⟩

/-- The courier comes first and waits; the pizza that is finished wakes it. -/
def soloRun : List (Event soloConfig.Thread Unit) :=
  [.lock soloCourier, .leave soloCourier [], .lock soloCook, .leave soloCook [], .lock soloCook,
    .leave soloCook [soloCourier], .lock soloCourier, .leave soloCourier [], .call soloCourier (),
    .lock soloCook, .leave soloCook [], .lock soloCourier, .leave soloCourier []]

theorem conservation_solo : ∃ s, (kitchen soloConfig).Reachable s ∧
    courierPc s ⟨0, by decide⟩ = .returned 1 ∧
    (s.owner = none →
      s.data.free_tables + (Finset.univ.filter fun id => AtTable (cookPc s id)).card =
        soloConfig.N_tables ∧
      0 ≤ s.data.free_tables ∧
      s.data.ready_pizzas + ∑ id, (courierPc s id).taken =
        ∑ id, (cookPc s id).finished (soloConfig.pizzas_to_make id) ∧
      0 ≤ s.data.ready_pizzas ∧
      s.data.active_cooks = (Finset.univ.filter fun id => cookPc s id ≠ .returned).card) ∧
    (∀ c taken, courierPc s c = .returned taken →
      (∀ id, cookPc s id = .returned) ∧
        ∑ id, (courierPc s id).taken = soloConfig.total_pizzas) := by
  have hrun : (replay (op soloConfig) (init soloConfig) soloRun).map
      (fun s => courierPc s ⟨0, by decide⟩) = some (.returned 1) := by decide +kernel
  obtain ⟨s, hreplay, hcourier⟩ := Option.map_eq_some_iff.mp hrun
  have hreach : (kitchen soloConfig).Reachable s :=
    (Run.of_replay hreplay).reachable (.init rfl)
  exact ⟨s, hreach, hcourier, conservation soloConfig s hreach⟩

end PizzaHoare
