import OsLessons.Pizzeria.Accounts

/-! # The end of the pizzeria

  `main` creates, joins, pushes and joins in program order. So nobody is unborn
  once it joins, no cook is left once it pushes the first stop value, and the
  stop values stand behind all pizzas in the queue.
-/

namespace Pizzeria

open Lts Semaphore

variable {cfg : Config}

/-! ### What a step does -/

theorem cook_isExit {id : Fin cfg.P} {pc : CookPc} (hpc : InRange cfg (.cook id) pc)
    (h : (cook_thread cfg id pc).isExit = true) : pc = .returned := by
  cases pc with
  | returned => rfl
  | loop i =>
    by_cases hi : i < cfg.pizzas_to_make id <;> simp [cook_thread, Op.isExit, hi] at h
  | pushing i pc =>
    cases pc with
    | returned => exact absurd rfl hpc.2
    | waitSlots | waitMutex | store | postMutex | postItems =>
      simp [cook_thread, queue_push, Op.embed, Op.isExit] at h
  | unborn | cooking | leaving => simp [cook_thread, Op.isExit] at h

theorem courier_isExit {id : Fin cfg.K} {pc : CourierPc} (hpc : InRange cfg (.courier id) pc)
    (h : (courier_thread cfg id pc).isExit = true) : pc = .returned := by
  cases pc with
  | returned => rfl
  | popping pc =>
    cases pc with
    | returned value => exact absurd rfl (hpc value)
    | waitItems | waitMutex | load | postMutex | postSlots =>
      simp [courier_thread, queue_pop, Op.embed, Op.isExit] at h
  | unborn | loop | delivering | counting | counted => simp [courier_thread, Op.isExit] at h

/-- What a step of a cook does. -/
theorem cook_leads {id : Fin cfg.P} {pc pc' : CookPc} {s s' : cfg.State}
    (h : (cook_thread cfg id pc).Leads (threads cfg) s s' pc') :
    pc ≠ .returned ∧ (s'.data = s.data ∨ ∃ i, pc = .pushing i .store ∧
      s'.data = s.data.setQueue (s.data.queue_pizzas.store (.cook id) (pizza_id id i))) := by
  cases pc with
  | unborn =>
    obtain ⟨a, hf⟩ := h
    obtain ⟨-, heq⟩ := Option.ite_none_right_eq_some.mp hf
    exact ⟨by simp, .inl (Prod.mk.inj (Option.some.inj heq)).1.symm⟩
  | loop i =>
    refine ⟨by simp, .inl ?_⟩
    by_cases hi : i < cfg.pizzas_to_make id
    · simp only [cook_thread, hi, ↓reduceIte] at h
      exact h.2.1
    · simp only [cook_thread, hi, ↓reduceIte] at h
      obtain ⟨a, hf⟩ := h
      exact (Prod.mk.inj (Option.some.inj hf)).1.symm
  | cooking i =>
    obtain ⟨a, hf⟩ := h
    exact ⟨by simp, .inl (Prod.mk.inj (Option.some.inj hf)).1.symm⟩
  | pushing i pc =>
    refine ⟨by simp, ?_⟩
    cases pc with
    | store =>
      obtain ⟨a, hf⟩ := h
      exact .inr ⟨i, rfl, (Prod.mk.inj (Option.some.inj hf)).1.symm⟩
    | waitSlots | waitMutex => exact .inl h.2.1
    | postMutex | postItems => exact .inl h.1
    | returned => exact h.elim
  | leaving i => exact ⟨by simp, .inl h.1⟩
  | returned => exact h.elim

/-- What a step of a courier does. -/
theorem courier_leads {id : Fin cfg.K} {pc pc' : CourierPc} {s s' : cfg.State}
    (h : (courier_thread cfg id pc).Leads (threads cfg) s s' pc') :
    pc ≠ .returned ∧ s'.data.created = s.data.created ∧
      (s'.data.queue_pizzas = s.data.queue_pizzas ∨
        s'.data.queue_pizzas = s.data.queue_pizzas.load (.courier id)) := by
  have hsame : s'.data = s.data → s'.data.created = s.data.created ∧
      (s'.data.queue_pizzas = s.data.queue_pizzas ∨
        s'.data.queue_pizzas = s.data.queue_pizzas.load (.courier id)) := by
    intro hdata
    rw [hdata]
    exact ⟨rfl, .inl rfl⟩
  cases pc with
  | unborn =>
    obtain ⟨a, hf⟩ := h
    obtain ⟨-, heq⟩ := Option.ite_none_right_eq_some.mp hf
    exact ⟨by simp, hsame (Prod.mk.inj (Option.some.inj heq)).1.symm⟩
  | loop =>
    obtain ⟨a, hf⟩ := h
    exact ⟨by simp, hsame (Prod.mk.inj (Option.some.inj hf)).1.symm⟩
  | popping pc =>
    refine ⟨by simp, ?_⟩
    cases pc with
    | load =>
      obtain ⟨a, hf⟩ := h
      have hdata := (Prod.mk.inj (Option.some.inj hf)).1
      rw [← hdata]
      exact ⟨rfl, .inr rfl⟩
    | waitItems | waitMutex => exact hsame h.2.1
    | postMutex | postSlots => exact hsame h.1
    | returned => exact h.elim
  | delivering value => exact ⟨by simp, hsame h.2.1⟩
  | counting value =>
    obtain ⟨a, hf⟩ := h
    have hdata := (Prod.mk.inj (Option.some.inj hf)).1
    rw [← hdata]
    exact ⟨by simp, rfl, .inl rfl⟩
  | counted value => exact ⟨by simp, hsame h.1⟩
  | returned => exact h.elim

/-- What a step of `main` does. -/
inductive MainMove (cfg : Config) (s s' : cfg.State) : MainPc → MainPc → Prop where
  | createCook {i} (h : i < cfg.P) : s'.data = s.data.create (.cook ⟨i, h⟩) →
      MainMove cfg s s' (.createCook i) (.createCook (i + 1))
  | cooksCreated {i} : ¬ i < cfg.P → s'.data = s.data →
      MainMove cfg s s' (.createCook i) (.createCourier 0)
  | createCourier {i} (h : i < cfg.K) : s'.data = s.data.create (.courier ⟨i, h⟩) →
      MainMove cfg s s' (.createCourier i) (.createCourier (i + 1))
  | couriersCreated {i} : ¬ i < cfg.K → s'.data = s.data →
      MainMove cfg s s' (.createCourier i) (.joinCook 0)
  | joinCook {i} (h : i < cfg.P) :
      (cook_thread cfg ⟨i, h⟩ (cookPc s ⟨i, h⟩)).isExit = true → s'.data = s.data →
      MainMove cfg s s' (.joinCook i) (.joinCook (i + 1))
  | cooksJoined {i} : ¬ i < cfg.P → s'.data = s.data → MainMove cfg s s' (.joinCook i) (.stop 0)
  | stop {i} : i < cfg.K → s'.data = s.data →
      MainMove cfg s s' (.stop i) (.pushing i .waitSlots)
  | stopped {i} : ¬ i < cfg.K → s'.data = s.data → MainMove cfg s s' (.stop i) (.joinCourier 0)
  | push {i pc pc'} : s'.data = s.data → MainMove cfg s s' (.pushing i pc) (.push i pc')
  | store {i} : s'.data = s.data.setQueue (s.data.queue_pizzas.store .main (-1)) →
      MainMove cfg s s' (.pushing i .store) (.push i .postMutex)
  | joinCourier {i} (h : i < cfg.K) :
      (courier_thread cfg ⟨i, h⟩ (courierPc s ⟨i, h⟩)).isExit = true → s'.data = s.data →
      MainMove cfg s s' (.joinCourier i) (.joinCourier (i + 1))
  | finish {i} : ¬ i < cfg.K → s'.data = s.data → MainMove cfg s s' (.joinCourier i) .finished

theorem main_leads {pc pc' : MainPc} {s s' : cfg.State}
    (h : (main cfg pc).Leads (threads cfg) s s' pc') : MainMove cfg s s' pc pc' := by
  cases pc with
  | createCook i =>
    obtain ⟨a, hf⟩ := h
    simp only at hf
    split at hf
    · next hi =>
      obtain ⟨hdata, rfl⟩ := Prod.mk.inj (Option.some.inj hf)
      exact .createCook hi hdata.symm
    · next hi =>
      obtain ⟨hdata, rfl⟩ := Prod.mk.inj (Option.some.inj hf)
      exact .cooksCreated hi hdata.symm
  | createCourier i =>
    obtain ⟨a, hf⟩ := h
    simp only at hf
    split at hf
    · next hi =>
      obtain ⟨hdata, rfl⟩ := Prod.mk.inj (Option.some.inj hf)
      exact .createCourier hi hdata.symm
    · next hi =>
      obtain ⟨hdata, rfl⟩ := Prod.mk.inj (Option.some.inj hf)
      exact .couriersCreated hi hdata.symm
  | joinCook i =>
    by_cases hi : i < cfg.P
    · simp only [main, hi, ↓reduceDIte] at h
      obtain ⟨hexit, hdata, rfl⟩ := h
      exact .joinCook hi hexit hdata
    · simp only [main, hi, ↓reduceDIte] at h
      obtain ⟨a, hf⟩ := h
      obtain ⟨hdata, rfl⟩ := Prod.mk.inj (Option.some.inj hf)
      exact .cooksJoined hi hdata.symm
  | stop i =>
    by_cases hi : i < cfg.K
    · simp only [main, hi, ↓reduceIte] at h
      obtain ⟨a, hf⟩ := h
      obtain ⟨hdata, rfl⟩ := Prod.mk.inj (Option.some.inj hf)
      exact .stop hi hdata.symm
    · simp only [main, hi, ↓reduceIte] at h
      obtain ⟨a, hf⟩ := h
      obtain ⟨hdata, rfl⟩ := Prod.mk.inj (Option.some.inj hf)
      exact .stopped hi hdata.symm
  | pushing i pc =>
    cases pc with
    | store =>
      obtain ⟨a, hf⟩ := h
      obtain ⟨hdata, rfl⟩ := Prod.mk.inj (Option.some.inj hf)
      exact .store hdata.symm
    | waitSlots | waitMutex =>
      obtain ⟨-, hdata, rfl⟩ := h
      exact .push hdata
    | postMutex | postItems =>
      obtain ⟨hdata, rfl⟩ := h
      exact .push hdata
    | returned => exact h.elim
  | joinCourier i =>
    by_cases hi : i < cfg.K
    · simp only [main, hi, ↓reduceDIte] at h
      obtain ⟨hexit, hdata, rfl⟩ := h
      exact .joinCourier hi hexit hdata
    · simp only [main, hi, ↓reduceDIte] at h
      obtain ⟨a, hf⟩ := h
      obtain ⟨hdata, rfl⟩ := Prod.mk.inj (Option.some.inj hf)
      exact .finish hi hdata.symm
  | finished => exact h.elim

/-- What a step can be: one thread moves, all others stay. -/
inductive Move (cfg : Config) (s s' : cfg.State) : Prop where
  | cook (id : Fin cfg.P) : cookPc s id ≠ .returned →
      (∀ id' ≠ id, cookPc s' id' = cookPc s id') → courierPc s' = courierPc s →
      mainPc s' = mainPc s →
      (s'.data = s.data ∨ ∃ i, cookPc s id = .pushing i .store ∧
        s'.data = s.data.setQueue (s.data.queue_pizzas.store (.cook id) (pizza_id id i))) →
      Move cfg s s'
  | courier (id : Fin cfg.K) : courierPc s id ≠ .returned → cookPc s' = cookPc s →
      (∀ id' ≠ id, courierPc s' id' = courierPc s id') → mainPc s' = mainPc s →
      s'.data.created = s.data.created →
      (s'.data.queue_pizzas = s.data.queue_pizzas ∨
        s'.data.queue_pizzas = s.data.queue_pizzas.load (.courier id)) → Move cfg s s'
  | main : cookPc s' = cookPc s → courierPc s' = courierPc s →
      MainMove cfg s s' (mainPc s) (mainPc s') → Move cfg s s'

theorem move_of_step {s s' : cfg.State} {e : Event cfg.Thread Unit}
    (h : Step (threads cfg) s e s') : Move cfg s s' := by
  have hframe : ∀ u, u ≠ e.thread → s'.thread u = s.thread u := fun u => h.frame
  have hleads := h.leads.resolve_right (fun hsig => by cases hsig.2)
  generalize e.thread = t at hframe hleads
  cases t with
  | cook id =>
    obtain ⟨hrunning, hdata⟩ := cook_leads hleads
    refine .cook id hrunning ?_ ?_ (hframe .main (by simp)) hdata
    · intro id' hne
      exact hframe (.cook id') (by simpa using hne)
    · funext c
      exact hframe (.courier c) (by simp)
  | courier id =>
    obtain ⟨hrunning, hcreated, hqueue⟩ := courier_leads hleads
    refine .courier id hrunning ?_ ?_ (hframe .main (by simp)) hcreated hqueue
    · funext id'
      exact hframe (.cook id') (by simp)
    · intro c hne
      exact hframe (.courier c) (by simpa using hne)
  | main =>
    refine .main ?_ ?_ (main_leads hleads)
    · funext id
      exact hframe (.cook id) (by simp)
    · funext id
      exact hframe (.courier id) (by simp)

/-! ### What `main` has done -/

/-- `main` has created cook `id`. -/
def MainPc.HasCook (id : ℕ) : MainPc → Prop
  | .createCook i => id < i
  | _ => True

/-- `main` has created courier `id`. -/
def MainPc.HasCourier (id : ℕ) : MainPc → Prop
  | .createCook _ => False
  | .createCourier i => id < i
  | _ => True

/-- `main` has joined cook `id`. -/
def MainPc.JoinedCook (id : ℕ) : MainPc → Prop
  | .createCook _ | .createCourier _ => False
  | .joinCook i => id < i
  | _ => True

/-- `main` has joined courier `id`. -/
def MainPc.JoinedCourier (id : ℕ) : MainPc → Prop
  | .joinCourier i => id < i
  | .finished => True
  | _ => False

/-- Who is joined has returned; who is created can start. -/
structure Order (cfg : Config) (s : cfg.State) : Prop where
  hasCook : ∀ id : Fin cfg.P, (mainPc s).HasCook id → s.data.created (.cook id) = true
  hasCourier : ∀ id : Fin cfg.K, (mainPc s).HasCourier id → s.data.created (.courier id) = true
  joinedCook : ∀ id : Fin cfg.P, (mainPc s).JoinedCook id → cookPc s id = .returned
  joinedCourier : ∀ id : Fin cfg.K, (mainPc s).JoinedCourier id → courierPc s id = .returned

theorem order_init (cfg : Config) (buf : ℕ → ℤ) : Order cfg (init cfg buf) where
  hasCook _ h := absurd h (Nat.not_lt_zero _)
  hasCourier _ h := h.elim
  joinedCook _ h := h.elim
  joinedCourier _ h := h.elim

theorem MainMove.hasCook {s s' : cfg.State} {l l' : MainPc} (h : MainMove cfg s s' l l')
    {id : Fin cfg.P} (hs : l.HasCook id → s.data.created (.cook id) = true)
    (hl' : l'.HasCook id) : s'.data.created (.cook id) = true := by
  cases h with
  | @createCook i hi hdata =>
    rw [hdata]
    rcases Nat.lt_or_eq_of_le (Nat.le_of_lt_succ hl') with hlt | heq
    · simp [Shared.create, Function.update_apply, hs hlt]
    · simp [Shared.create, ← heq]
  | @createCourier i hi hdata =>
    rw [hdata]
    simp [Shared.create, hs trivial]
  | cooksCreated hi hdata =>
    rw [hdata]
    exact hs (lt_of_lt_of_le id.isLt (not_lt.mp hi))
  | store hdata =>
    rw [hdata]
    exact hs trivial
  | couriersCreated _ hdata | joinCook _ _ hdata | cooksJoined _ hdata | stop _ hdata
  | stopped _ hdata | push hdata | joinCourier _ _ hdata | finish _ hdata =>
    rw [hdata]
    exact hs trivial

theorem MainMove.hasCourier {s s' : cfg.State} {l l' : MainPc} (h : MainMove cfg s s' l l')
    {id : Fin cfg.K} (hs : l.HasCourier id → s.data.created (.courier id) = true)
    (hl' : l'.HasCourier id) : s'.data.created (.courier id) = true := by
  cases h with
  | createCook => exact hl'.elim
  | cooksCreated => exact absurd hl' (Nat.not_lt_zero _)
  | @createCourier i hi hdata =>
    rw [hdata]
    rcases Nat.lt_or_eq_of_le (Nat.le_of_lt_succ hl') with hlt | heq
    · simp [Shared.create, Function.update_apply, hs hlt]
    · simp [Shared.create, ← heq]
  | couriersCreated hi hdata =>
    rw [hdata]
    exact hs (lt_of_lt_of_le id.isLt (not_lt.mp hi))
  | store hdata =>
    rw [hdata]
    exact hs trivial
  | joinCook _ _ hdata | cooksJoined _ hdata | stop _ hdata
  | stopped _ hdata | push hdata | joinCourier _ _ hdata | finish _ hdata =>
    rw [hdata]
    exact hs trivial

theorem MainMove.joinedCook {s s' : cfg.State} {l l' : MainPc} (h : MainMove cfg s s' l l')
    (hin : ∀ t, InRange cfg t (s.thread t)) {id : Fin cfg.P}
    (hs : l.JoinedCook id → cookPc s id = .returned) (hl' : l'.JoinedCook id) :
    cookPc s id = .returned := by
  cases h with
  | createCook | cooksCreated | createCourier => exact hl'.elim
  | couriersCreated => exact absurd hl' (Nat.not_lt_zero _)
  | @joinCook i hi hexit =>
    rcases Nat.lt_or_eq_of_le (Nat.le_of_lt_succ hl') with hlt | heq
    · exact hs hlt
    · obtain rfl : id = ⟨i, hi⟩ := Fin.ext heq
      exact cook_isExit (hin (.cook _)) hexit
  | cooksJoined hi => exact hs (lt_of_lt_of_le id.isLt (not_lt.mp hi))
  | stop | stopped | push | store | joinCourier | finish => exact hs trivial

theorem MainMove.joinedCourier {s s' : cfg.State} {l l' : MainPc} (h : MainMove cfg s s' l l')
    (hin : ∀ t, InRange cfg t (s.thread t)) {id : Fin cfg.K}
    (hs : l.JoinedCourier id → courierPc s id = .returned) (hl' : l'.JoinedCourier id) :
    courierPc s id = .returned := by
  cases h with
  | @joinCourier i hi hexit =>
    rcases Nat.lt_or_eq_of_le (Nat.le_of_lt_succ hl') with hlt | heq
    · exact hs hlt
    · obtain rfl : id = ⟨i, hi⟩ := Fin.ext heq
      exact courier_isExit (hin (.courier _)) hexit
  | finish hi => exact hs (lt_of_lt_of_le id.isLt (not_lt.mp hi))
  | stopped => exact absurd hl' (Nat.not_lt_zero _)
  | @push i pc pc' =>
    cases pc' <;> exact hl'.elim
  | createCook | cooksCreated | createCourier | couriersCreated | joinCook | cooksJoined | stop
  | store => exact hl'.elim

theorem order_step {s s' : cfg.State} (hs : Order cfg s)
    (hin : ∀ t, InRange cfg t (s.thread t)) (h : Move cfg s s') : Order cfg s' := by
  obtain ⟨hhas, hhas', hjoin, hjoin'⟩ := hs
  cases h with
  | cook id hrunning hother hcourier hmain hdata =>
    have hcreated : s'.data.created = s.data.created := by
      rcases hdata with hdata | ⟨i, -, hdata⟩ <;> rw [hdata]
      rfl
    constructor
    · rwa [hmain, hcreated]
    · rwa [hmain, hcreated]
    · intro id' hid'
      rw [hmain] at hid'
      -- a cook that has returned does not move
      have hne : id' ≠ id := by
        rintro rfl
        exact hrunning (hjoin _ hid')
      rw [hother id' hne]
      exact hjoin _ hid'
    · rwa [hmain, hcourier]
  | courier id hrunning hcook hother hmain hcreated hqueue =>
    constructor
    · rwa [hmain, hcreated]
    · rwa [hmain, hcreated]
    · rwa [hmain, hcook]
    · intro id' hid'
      rw [hmain] at hid'
      have hne : id' ≠ id := by
        rintro rfl
        exact hrunning (hjoin' _ hid')
      rw [hother id' hne]
      exact hjoin' _ hid'
  | main hcook hcourier hmove =>
    constructor
    · exact fun id => hmove.hasCook (hhas id)
    · exact fun id => hmove.hasCourier (hhas' id)
    · rw [hcook]
      exact fun id => hmove.joinedCook hin (hjoin id)
    · rw [hcourier]
      exact fun id => hmove.joinedCourier hin (hjoin' id)

theorem order {s : cfg.State} (h : (pizzeria cfg).Reachable s) : Order cfg s := by
  apply System.invariant_of (fun _ => inRange) _ _ h
  · rintro _ ⟨buf, rfl⟩
    exact order_init cfg buf
  · intro s e s' hin hs hstep
    exact order_step hs hin (move_of_step hstep)

end Pizzeria
