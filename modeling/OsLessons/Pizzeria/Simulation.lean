import OsLessons.Pizzeria.Shutdown

/-! # The pizzeria finishes

  The stop values stand behind all pizzas, so what is left in the queue when
  every courier has one is nothing. Where everybody waits, the accounts leave
  nothing to wait for, so `main` has finished.
-/

namespace Pizzeria

open Lts Semaphore

variable {cfg : Config}

/-! ### The order of the values -/

theorem stops_eq {T : Type*} (h : List (T × ℤ)) :
    stops h = (h.map Prod.snd).countP fun v => v < 0 := by
  rw [List.countP_map]
  rfl

theorem countP_pizzas {pizzas : List ℤ} (h : ∀ v ∈ pizzas, 0 ≤ v) :
    (pizzas.countP fun v => v < 0) = 0 := by
  rw [List.countP_eq_zero]
  intro v hv
  have := h v hv
  simpa using this

theorem countP_rest {rest : List ℤ} (h : ∀ v ∈ rest, v < 0) :
    (rest.countP fun v => v < 0) = rest.length := by
  rw [List.countP_eq_length]
  intro v hv
  simpa using h v hv

/-- Who has taken all stop values has taken everything before them. -/
theorem length_le_of_stops {pizzas rest : List ℤ} {m : ℕ} (hpizzas : ∀ v ∈ pizzas, 0 ≤ v)
    (hpos : 0 < rest.length)
    (h : (((pizzas ++ rest).take m).countP fun v => v < 0) = rest.length) :
    (pizzas ++ rest).length ≤ m := by
  have hnone : ((pizzas.take m).countP fun v => v < 0) = 0 :=
    countP_pizzas fun v hv => hpizzas v (List.mem_of_mem_take hv)
  have hle : ((rest.take (m - pizzas.length)).countP fun v => v < 0) ≤ m - pizzas.length :=
    List.countP_le_length.trans (List.length_take_le _ _)
  rw [List.take_append, List.countP_append, hnone, zero_add] at h
  rw [List.length_append]
  omega

/-- Pizzas first, stop values behind them; only couriers take them. -/
structure Flow (s : cfg.State) : Prop where
  behind : ∃ pizzas rest : List ℤ,
    s.data.queue_pizzas.pushed.map Prod.snd = pizzas ++ rest ∧
      (∀ v ∈ pizzas, 0 ≤ v) ∧ ∀ v ∈ rest, v < 0
  takers : ∀ e ∈ s.data.queue_pizzas.popped, ∃ c, e.1 = .courier c

/-- As long as a cook runs, no stop value has been pushed. -/
theorem stops_of_running {s : cfg.State} (hbooks : Books cfg s) (horder : Order cfg s)
    {id : Fin cfg.P} (hid : cookPc s id ≠ .returned) : stops s.data.queue_pizzas.pushed = 0 := by
  have hall : (mainPc s).toPush cfg.K = cfg.K := by
    have hnot : ¬ (mainPc s).JoinedCook id := fun hjoined => hid (horder.joinedCook id hjoined)
    cases hmain : mainPc s with
    | createCook | createCourier | joinCook => rfl
    | stop | pushing | joinCourier | finished =>
      rw [hmain] at hnot
      exact absurd trivial hnot
  have := hbooks.stopsPushed
  omega

theorem flow_step {s s' : cfg.State} (hs : Flow s) (hbooks : Books cfg s) (horder : Order cfg s)
    (h : Move cfg s s') : Flow s' := by
  obtain ⟨⟨pizzas, rest, hsplit, hpizzas, hrest⟩, htakers⟩ := hs
  have hsame : s'.data.queue_pizzas = s.data.queue_pizzas → Flow s' := by
    intro hqueue
    constructor
    · rw [hqueue]
      exact ⟨pizzas, rest, hsplit, hpizzas, hrest⟩
    · rwa [hqueue]
  cases h with
  | cook id hrunning _ _ _ hdata =>
    rcases hdata with hdata | ⟨i, hpc, hdata⟩
    · exact hsame (by rw [hdata])
    · constructor
      · -- there is no stop value yet
        have hnone : rest = [] := by
          have hzero := stops_of_running hbooks horder hrunning
          rw [stops_eq, hsplit, List.countP_append, countP_rest hrest] at hzero
          exact List.length_eq_zero_iff.mp (by omega)
        subst hnone
        refine ⟨pizzas ++ [pizza_id id i], [], ?_, ?_, by simp⟩
        · rw [hdata]
          simp [Shared.setQueue, PizzaQueue.store, hsplit]
        · intro v hv
          rcases List.mem_append.mp hv with hv | hv
          · exact hpizzas v hv
          · rw [List.mem_singleton.mp hv]
            exact not_lt.mp (pizza_id_nonneg _ _)
      · rw [hdata]
        exact htakers
  | courier id _ _ _ _ _ hqueue =>
    rcases hqueue with hqueue | hqueue
    · exact hsame hqueue
    · constructor
      · rw [hqueue]
        exact ⟨pizzas, rest, hsplit, hpizzas, hrest⟩
      · rw [hqueue]
        intro e he
        rcases List.mem_append.mp he with he | he
        · exact htakers e he
        · rw [List.mem_singleton.mp he]
          exact ⟨id, rfl⟩
  | main _ _ hmove =>
    generalize mainPc s = l at hmove
    generalize mainPc s' = l' at hmove
    cases hmove with
    | store hdata =>
      constructor
      · refine ⟨pizzas, rest ++ [-1], ?_, hpizzas, ?_⟩
        · rw [hdata]
          simp [Shared.setQueue, PizzaQueue.store, hsplit]
        · intro v hv
          rcases List.mem_append.mp hv with hv | hv
          · exact hrest v hv
          · rw [List.mem_singleton.mp hv]
            decide
      · rw [hdata]
        exact htakers
    | createCook _ hdata | createCourier _ hdata =>
      apply hsame
      rw [hdata]
      rfl
    | cooksCreated _ hdata | couriersCreated _ hdata | joinCook _ _ hdata | cooksJoined _ hdata
    | stop _ hdata | stopped _ hdata | push hdata | joinCourier _ _ hdata | finish _ hdata =>
      exact hsame (by rw [hdata])

theorem flow {s : cfg.State} (h : (pizzeria cfg).Reachable s) : Flow s := by
  have hall : ∀ s, (pizzeria cfg).Reachable s → Books cfg s ∧ Order cfg s :=
    fun s hs => ⟨books hs, order hs⟩
  apply System.invariant_of hall _ _ h
  · rintro _ ⟨buf, rfl⟩
    exact ⟨⟨[], [], rfl, by simp, by simp⟩, by simp [init]⟩
  · intro s e s' hboth hs hstep
    exact flow_step hs hboth.1 hboth.2 (move_of_step hstep)

/-! ### Tables and slots -/

/-- The cook is between `sem_wait(&sem_tables)` and `sem_post(&sem_tables)`. -/
def AtTable (pc : CookPc) : Prop := pc.atTable = 1

instance (pc : CookPc) : Decidable (AtTable pc) := inferInstanceAs (Decidable (_ = _))

theorem tables_bound {s : cfg.State} (hbooks : Books cfg s) :
    (Finset.univ.filter fun id => AtTable (cookPc s id)).card ≤ cfg.N_tables := by
  have hcard : ((Finset.univ.filter fun id => AtTable (cookPc s id)).card : ℤ) =
      ∑ id, (cookPc s id).atTable := by
    rw [Finset.card_filter]
    push_cast
    apply Finset.sum_congr rfl
    intro id _
    unfold AtTable
    cases cookPc s id <;> rfl
  have := hbooks.tables
  omega

/-- The thread is at `sem_wait(&sem_slots)` of `queue_push`. -/
def WaitsForSlot (s : cfg.State) (t : cfg.Thread) : Prop :=
  ∃ value, view t (s.thread t) = .pushing value .waitSlots

/-- Who has a slot, or waits for one, has its value still to push. -/
theorem storing_le_toPush {t : cfg.Thread} {l : Pc t} (hl : InRange cfg t l) :
    at_ storing (view t l) ≤ Law.pushes.pc t l ∧
      ((∃ value, view t l = .pushing value .waitSlots) →
        at_ storing (view t l) + 1 ≤ Law.pushes.pc t l) := by
  cases t with
  | cook id =>
    cases l with
    | pushing i pc =>
      have hi : i < cfg.pizzas_to_make id := hl.1
      cases pc <;>
        simp [view, QueuePc.push, at_, storing, Law.pushes, Law.pc, CookPc.toPush,
          PushPc.done] <;> omega
    | loop i =>
      have hi : i ≤ cfg.pizzas_to_make id := hl
      simp [view, at_, storing, Law.pushes, Law.pc, CookPc.toPush, hi]
    | cooking i | leaving i =>
      have hi : i < cfg.pizzas_to_make id := hl
      simp [view, at_, storing, Law.pushes, Law.pc, CookPc.toPush]
      omega
    | unborn | returned => simp [view, at_, storing, Law.pushes, Law.pc, CookPc.toPush]
  | courier id =>
    cases l with
    | popping pc => cases pc <;> simp [view, QueuePc.pop, at_, storing, Law.pushes, Law.pc]
    | _ => simp [view, at_, storing, Law.pushes, Law.pc]
  | main =>
    cases l with
    | pushing i pc =>
      have hi : i < cfg.K := hl.1
      cases pc <;>
        simp [view, QueuePc.push, at_, storing, Law.pushes, Law.pc, MainPc.toPush,
          PushPc.done] <;> omega
    | stop i =>
      have hi : i ≤ cfg.K := hl
      simp [view, at_, storing, Law.pushes, Law.pc, MainPc.toPush, hi]
    | _ => simp [view, at_, storing, Law.pushes, Law.pc, MainPc.toPush]

theorem capacity_ge (cfg : Config) : cfg.total_pizzas + cfg.K ≤ cfg.queue_capacity := by
  unfold Config.queue_capacity
  split <;> omega

/-- **No push blocks on the slots.** -/
theorem slot_free {s : cfg.State} (h : (pizzeria cfg).Reachable s)
    {t : cfg.Thread} (ht : WaitsForSlot s t) : 0 < s.sem (.queue .sem_slots) := by
  have hslots := (laws (seen_reachable h)).slots_ge
  have hpushes := (books h).pushes
  have hcap := capacity_ge cfg
  have hsum : ∑ u, Law.pushes.pc u (s.thread u) =
      ∑ id, (cookPc s id).toPush (cfg.pizzas_to_make id) + (mainPc s).toPush cfg.K := by
    rw [Thread.sum_eq]
    simp [Law.pushes, Law.pc, cookPc, mainPc]
  have hle : count storing (seen s) + 1 ≤ ∑ u, Law.pushes.pc u (s.thread u) := by
    have hone : (1 : ℤ) ≤ ∑ u, (Law.pushes.pc u (s.thread u) - at_ storing (view u (s.thread u))) := by
      have hat := (storing_le_toPush (inRange h t)).2 ht
      refine le_trans ?_ (Finset.single_le_sum (fun u _ => ?_) (Finset.mem_univ t))
      · omega
      · have := (storing_le_toPush (inRange h u)).1
        omega
    rw [Finset.sum_sub_distrib] at hone
    have hdiff : 1 ≤ ∑ u, Law.pushes.pc u (s.thread u) - count storing (seen s) := hone
    omega
  have hsem : ((seen s).sem .sem_slots : ℤ) = s.sem (.queue .sem_slots) := rfl
  have hpushed : ((seen s).data.pushed.length : ℤ) = s.data.queue_pizzas.pushed.length := rfl
  omega

/-! ### Nobody waits for ever -/

/-- Every thread is stuck. -/
def Quiet (s : cfg.State) : Prop :=
  ∀ t, ((threads cfg).op t (s.thread t)).Stuck (threads cfg) s

theorem push_stuck {L : Type} {s : cfg.State} {t : cfg.Thread} {value : ℤ} {k : PushPc → L}
    {pc : PushPc}
    (h : ((queue_push t value pc).embed Shared.queue_pizzas Shared.setQueue Sem.queue k :
      Op cfg.Shared Sem cfg.Thread Unit L).Stuck (threads cfg) s) :
    (pc = .waitSlots ∧ s.sem (.queue .sem_slots) = 0) ∨
      (pc = .waitMutex ∧ s.sem (.queue .sem_queue_mutex) = 0) ∨ pc = .returned := by
  cases pc with
  | waitSlots => exact .inl ⟨rfl, h⟩
  | waitMutex => exact .inr (.inl ⟨rfl, h⟩)
  | store => cases h ()
  | postMutex | postItems => exact h.elim
  | returned => exact .inr (.inr rfl)

theorem pop_stuck {L : Type} {s : cfg.State} {t : cfg.Thread} {k : PopPc → L} {pc : PopPc}
    (h : ((queue_pop t pc).embed Shared.queue_pizzas Shared.setQueue Sem.queue k :
      Op cfg.Shared Sem cfg.Thread Unit L).Stuck (threads cfg) s) :
    (pc = .waitItems ∧ s.sem (.queue .sem_items) = 0) ∨
      (pc = .waitMutex ∧ s.sem (.queue .sem_queue_mutex) = 0) ∨ ∃ value, pc = .returned value := by
  cases pc with
  | waitItems => exact .inl ⟨rfl, h⟩
  | waitMutex => exact .inr (.inl ⟨rfl, h⟩)
  | load => cases h ()
  | postMutex | postSlots => exact h.elim
  | returned value => exact .inr (.inr ⟨value, rfl⟩)

/-- Where a stuck thread can be in a push or a pop. -/
theorem stuck_view {s : cfg.State} (hq : Quiet s) (t : cfg.Thread) :
    view t (s.thread t) = .idle ∨ (WaitsForSlot s t ∧ s.sem (.queue .sem_slots) = 0) ∨
      (inside (view t (s.thread t)) = false ∧ s.sem (.queue .sem_queue_mutex) = 0) ∨
      (view t (s.thread t) = .popping .waitItems ∧ s.sem (.queue .sem_items) = 0) := by
  have hstuck := hq t
  unfold WaitsForSlot
  cases t with
  | cook id =>
    generalize s.thread (.cook id) = l at hstuck
    cases l with
    | pushing i pc =>
      rcases push_stuck hstuck with ⟨rfl, hsem⟩ | ⟨rfl, hsem⟩ | rfl
      · exact .inr (.inl ⟨⟨_, rfl⟩, hsem⟩)
      · exact .inr (.inr (.inl ⟨rfl, hsem⟩))
      · exact .inl rfl
    | _ => exact .inl rfl
  | courier id =>
    generalize s.thread (.courier id) = l at hstuck
    cases l with
    | popping pc =>
      rcases pop_stuck hstuck with ⟨rfl, hsem⟩ | ⟨rfl, hsem⟩ | ⟨value, rfl⟩
      · exact .inr (.inr (.inr ⟨rfl, hsem⟩))
      · exact .inr (.inr (.inl ⟨rfl, hsem⟩))
      · exact .inl rfl
    | _ => exact .inl rfl
  | main =>
    generalize s.thread .main = l at hstuck
    cases l with
    | pushing i pc =>
      rcases push_stuck hstuck with ⟨rfl, hsem⟩ | ⟨rfl, hsem⟩ | rfl
      · exact .inr (.inl ⟨⟨_, rfl⟩, hsem⟩)
      · exact .inr (.inr (.inl ⟨rfl, hsem⟩))
      · exact .inl rfl
    | _ => exact .inl rfl

/-- Nobody is stuck in the middle of a push or a pop. -/
theorem quiet_view {s : cfg.State} (h : (pizzeria cfg).Reachable s)
    (hq : Quiet s) (t : cfg.Thread) : view t (s.thread t) = .idle ∨
      (view t (s.thread t) = .popping .waitItems ∧ s.sem (.queue .sem_items) = 0) := by
  -- nobody is inside, so the mutex is free
  have hnone : count inside (seen s) = 0 := by
    apply Finset.sum_eq_zero
    intro u _
    have hout : inside (view u (s.thread u)) = false := by
      rcases stuck_view hq u with hidle | ⟨⟨value, hslot⟩, -⟩ | ⟨hout, -⟩ | ⟨hitem, -⟩
      · rw [hidle]
        rfl
      · rw [hslot]
        rfl
      · exact hout
      · rw [hitem]
        rfl
    show at_ inside (view u (s.thread u)) = 0
    rw [at_, hout]
    rfl
  have hfree : (s.sem (.queue .sem_queue_mutex) : ℤ) = 1 := by
    have hmutex := (laws (seen_reachable h)).mutex
    rw [hnone, add_zero] at hmutex
    exact hmutex
  rcases stuck_view hq t with hidle | ⟨hslot, hempty⟩ | ⟨-, hmutex⟩ | hitem
  · exact .inl hidle
  · have hpos := slot_free h hslot
    omega
  · omega
  · exact .inr hitem

/-- A stuck cook has returned, or it has not been created. -/
theorem quiet_cook (hN : 0 < cfg.N_tables) {s : cfg.State}
    (h : (pizzeria cfg).Reachable s) (hq : Quiet s) (id : Fin cfg.P) :
    cookPc s id = .returned ∨ s.data.created (.cook id) = false := by
  -- a stuck cook is not at a table
  have haway : ∀ id, (cookPc s id).atTable = 0 := by
    intro id
    have hstuck : (cook_thread cfg id (cookPc s id)).Stuck (threads cfg) s := hq (.cook id)
    have hin : InRange cfg (.cook id) (cookPc s id) := inRange h (.cook id)
    have hview : view (.cook id) (cookPc s id) = .idle ∨
      (view (.cook id) (cookPc s id) = .popping .waitItems ∧ s.sem (.queue .sem_items) = 0) :=
        quiet_view h hq (.cook id)
    cases hpc : cookPc s id with
    | unborn | loop | returned => rfl
    | cooking i =>
      rw [hpc] at hstuck
      cases hstuck ()
    | leaving i =>
      rw [hpc] at hstuck
      exact hstuck.elim
    | pushing i pc =>
      rw [hpc] at hin hview
      have hne := hin.2
      cases pc with
      | returned => exact absurd rfl hne
      | waitSlots | waitMutex | store | postMutex | postItems =>
        simp [view, QueuePc.push] at hview
  have htables := (books h).tables
  rw [Finset.sum_eq_zero fun id _ => haway id] at htables
  have hstuck : (cook_thread cfg id (cookPc s id)).Stuck (threads cfg) s := hq (.cook id)
  have hat := haway id
  cases hpc : cookPc s id with
  | returned => exact .inl rfl
  | unborn =>
    rw [hpc] at hstuck
    have hborn := hstuck ()
    right
    simpa [born] using hborn
  | loop i =>
    rw [hpc] at hstuck
    by_cases hi : i < cfg.pizzas_to_make id
    · simp only [cook_thread, hi, ↓reduceIte] at hstuck
      have hzero : s.sem .sem_tables = 0 := hstuck
      omega
    · simp only [cook_thread, hi, ↓reduceIte] at hstuck
      cases hstuck ()
  | cooking | pushing | leaving =>
    rw [hpc] at hat
    cases hat

/-- A stuck courier has returned, waits for an item, or has not been created. -/
theorem quiet_courier {s : cfg.State} (h : (pizzeria cfg).Reachable s)
    (hq : Quiet s) (id : Fin cfg.K) : courierPc s id = .returned ∨
      (courierPc s id = .popping .waitItems ∧ s.sem (.queue .sem_items) = 0) ∨
      s.data.created (.courier id) = false := by
  have hnone : ∀ id, (courierPc s id).counts = 0 := by
    intro id
    have hstuck : (courier_thread cfg id (courierPc s id)).Stuck (threads cfg) s :=
      hq (.courier id)
    cases hpc : courierPc s id with
    | counting value =>
      rw [hpc] at hstuck
      cases hstuck ()
    | counted value =>
      rw [hpc] at hstuck
      exact hstuck.elim
    | unborn | loop | popping | delivering | returned => rfl
  have hstats := (books h).stats
  rw [Finset.sum_eq_zero fun id _ => hnone id] at hstats
  have hstuck : (courier_thread cfg id (courierPc s id)).Stuck (threads cfg) s := hq (.courier id)
  have hin : InRange cfg (.courier id) (courierPc s id) := inRange h (.courier id)
  have hview : view (.courier id) (courierPc s id) = .idle ∨
    (view (.courier id) (courierPc s id) = .popping .waitItems ∧ s.sem (.queue .sem_items) = 0) :=
      quiet_view h hq (.courier id)
  have hcounts := hnone id
  cases hpc : courierPc s id with
  | returned => exact .inl rfl
  | unborn =>
    rw [hpc] at hstuck
    have hborn := hstuck ()
    refine .inr (.inr ?_)
    simpa [born] using hborn
  | loop =>
    rw [hpc] at hstuck
    cases hstuck ()
  | popping pc =>
    rw [hpc] at hin hview
    cases pc with
    | waitItems => exact .inr (.inl ⟨rfl, (hview.resolve_left (by simp [view, QueuePc.pop])).2⟩)
    | returned value => exact absurd rfl (hin value)
    | waitMutex | load | postMutex | postSlots => simp [view, QueuePc.pop] at hview
  | delivering value =>
    rw [hpc] at hstuck
    have hzero : s.sem .sem_stats_mutex = 0 := hstuck
    omega
  | counting | counted =>
    rw [hpc] at hcounts
    cases hcounts

/-- With all stop values popped, every courier has one. -/
theorem stopped_of_all {s : cfg.State} (hbooks : Books cfg s)
    (hall : stops s.data.queue_pizzas.popped = cfg.K) (c : Fin cfg.K) :
    (courierPc s c).stopped = 1 := by
  have hle : ∀ pc : CourierPc, pc.stopped ≤ 1 := by
    intro pc
    unfold CourierPc.stopped
    split <;> first
      | split <;> omega
      | omega
  have hsum : ∑ id, (1 - (courierPc s id).stopped) = 0 := by
    rw [Finset.sum_sub_distrib, ← hbooks.stopsTaken, hall]
    simp
  have hzero := (Finset.sum_eq_zero_iff_of_nonneg fun id _ => by
    have := hle (courierPc s id)
    omega).mp hsum c (Finset.mem_univ c)
  omega

/-- Who is created and stuck has returned, or everything is popped. -/
theorem popped_of_quiet {s : cfg.State} (h : (pizzeria cfg).Reachable s)
    (hq : Quiet s) (hitems : s.sem (.queue .sem_items) = 0) :
    s.data.queue_pizzas.popped.map Prod.snd = s.data.queue_pizzas.pushed.map Prod.snd := by
  have hview := quiet_view h hq
  have hcount : ∀ P : QueuePc → Bool, P .idle = false → P (.popping .waitItems) = false →
      count P (seen s) = 0 := by
    intro P hidle hitem
    apply Finset.sum_eq_zero
    intro t _
    show at_ P (view t (s.thread t)) = 0
    rcases hview t with ht | ⟨ht, -⟩
    · rw [ht, at_, hidle]
      rfl
    · rw [ht, at_, hitem]
      rfl
  have hlaw := (laws (seen_reachable h)).items
  rw [hcount stored rfl rfl, hcount loading rfl rfl] at hlaw
  have hsem : ((seen s).sem .sem_items : ℤ) = s.sem (.queue .sem_items) := rfl
  have hlen : (seen s).data.popped.length = (seen s).data.pushed.length := by omega
  have hpopped := (ring (seen_reachable h)).popped
  rw [hlen, List.take_of_length_le (by simp)] at hpopped
  exact hpopped

/-- **Progress**: where every thread is stuck, `main` has finished. -/
theorem finished_of_quiet (hN : 0 < cfg.N_tables) {s : cfg.State}
    (h : (pizzeria cfg).Reachable s) (hq : Quiet s) : mainPc s = .finished := by
  have hstuck : (main cfg (mainPc s)).Stuck (threads cfg) s := hq .main
  have horder := order h
  cases hmain : mainPc s with
  | finished => rfl
  | createCook i =>
    rw [hmain] at hstuck
    have hnone := hstuck ()
    simp only at hnone
    split at hnone <;> cases hnone
  | createCourier i =>
    rw [hmain] at hstuck
    have hnone := hstuck ()
    simp only at hnone
    split at hnone <;> cases hnone
  | joinCook i =>
    rw [hmain] at hstuck
    by_cases hi : i < cfg.P
    · simp only [main, hi, ↓reduceDIte] at hstuck
      have hrunning : (cook_thread cfg ⟨i, hi⟩ (cookPc s ⟨i, hi⟩)).isExit = false := hstuck
      rcases quiet_cook hN h hq ⟨i, hi⟩ with hret | hunborn
      · rw [hret] at hrunning
        cases hrunning
      · rw [horder.hasCook _ (by rw [hmain]; trivial)] at hunborn
        cases hunborn
    · simp only [main, hi, ↓reduceDIte] at hstuck
      cases hstuck ()
  | stop i =>
    rw [hmain] at hstuck
    by_cases hi : i < cfg.K
    · simp only [main, hi, ↓reduceIte] at hstuck
      cases hstuck ()
    · simp only [main, hi, ↓reduceIte] at hstuck
      cases hstuck ()
  | pushing i pc =>
    have hview : view .main (mainPc s) = .idle ∨
      (view .main (mainPc s) = .popping .waitItems ∧ s.sem (.queue .sem_items) = 0) :=
        quiet_view h hq .main
    have hin : InRange cfg .main (mainPc s) := inRange h .main
    rw [hmain] at hview hin
    have hne := hin.2
    cases pc with
    | returned => exact absurd rfl hne
    | waitSlots | waitMutex | store | postMutex | postItems =>
      simp [view, QueuePc.push] at hview
  | joinCourier i =>
    rw [hmain] at hstuck
    by_cases hi : i < cfg.K
    · simp only [main, hi, ↓reduceDIte] at hstuck
      have hrunning : (courier_thread cfg ⟨i, hi⟩ (courierPc s ⟨i, hi⟩)).isExit = false := hstuck
      have hbooks := books h
      rcases quiet_courier h hq ⟨i, hi⟩ with hret | ⟨hwait, hitems⟩ | hunborn
      · rw [hret] at hrunning
        cases hrunning
      -- everything is popped, so it has its stop value
      · have hpushed : stops s.data.queue_pizzas.pushed = cfg.K := by
          have hlaw := hbooks.stopsPushed
          rw [hmain] at hlaw
          have hzero : (MainPc.joinCourier i).toPush cfg.K = 0 := rfl
          omega
        have hall : stops s.data.queue_pizzas.popped = cfg.K := by
          rw [stops_eq, popped_of_quiet h hq hitems, ← stops_eq, hpushed]
        have hone := stopped_of_all hbooks hall ⟨i, hi⟩
        rw [hwait] at hone
        cases hone
      · rw [horder.hasCourier _ (by rw [hmain]; trivial)] at hunborn
        cases hunborn
    · simp only [main, hi, ↓reduceDIte] at hstuck
      cases hstuck ()

/-! ### The end -/

/-- What holds when `main` has printed "Simulation finished". -/
structure Outcome (cfg : Config) (s : cfg.State) : Prop where
  /-- the values popped are the values pushed, one for one -/
  taken : s.data.queue_pizzas.popped.map Prod.snd = s.data.queue_pizzas.pushed.map Prod.snd
  takers : ∀ e ∈ s.data.queue_pizzas.popped, ∃ c, e.1 = .courier c
  pizzas : (s.data.queue_pizzas.pushed.countP fun e => 0 ≤ e.2) = cfg.total_pizzas
  delivered : s.data.delivered_total = cfg.total_pizzas
  stop : ∀ c, stops (s.data.queue_pizzas.popped.filter fun e => e.1 = .courier c) = 1
  empty : s.sem (.queue .sem_items) = 0 ∧ s.data.queue_pizzas.head = s.data.queue_pizzas.tail

/-- Behind the end no thread is at work on the queue. -/
theorem count_of_finished {s : cfg.State} (hfin : mainPc s = .finished)
    (hcook : ∀ id, cookPc s id = .returned) (hcourier : ∀ id, courierPc s id = .returned)
    {P : QueuePc → Bool} (hP : P .idle = false) : count P (seen s) = 0 := by
  apply Finset.sum_eq_zero
  intro t _
  show at_ P (view t (s.thread t)) = 0
  have hview : view t (s.thread t) = .idle := by
    cases t with
    | cook id =>
      have hpc : s.thread (.cook id) = CookPc.returned := hcook id
      rw [hpc]
      rfl
    | courier id =>
      have hpc : s.thread (.courier id) = CourierPc.returned := hcourier id
      rw [hpc]
      rfl
    | main =>
      have hpc : s.thread .main = MainPc.finished := hfin
      rw [hpc]
      rfl
  rw [hview, at_, hP]
  rfl

/-- The values that are no stop values are the pizzas. -/
theorem countP_nonneg {pizzas rest : List ℤ} (hpizzas : ∀ v ∈ pizzas, 0 ≤ v)
    (hrest : ∀ v ∈ rest, v < 0) : ((pizzas ++ rest).countP fun v => 0 ≤ v) = pizzas.length := by
  have hnonneg : (pizzas.countP fun v => 0 ≤ v) = pizzas.length := by
    rw [List.countP_eq_length]
    intro v hv
    simpa using hpizzas v hv
  have hneg : (rest.countP fun v => 0 ≤ v) = 0 := by
    rw [List.countP_eq_zero]
    intro v hv
    simpa using hrest v hv
  rw [List.countP_append, hnonneg, hneg, Nat.add_zero]

theorem outcome (hK : 0 < cfg.K) {s : cfg.State} (h : (pizzeria cfg).Reachable s)
    (hfin : mainPc s = .finished) : Outcome cfg s := by
  have horder := order h
  have hbooks := books h
  have hring := ring (seen_reachable h)
  have hcook : ∀ id, cookPc s id = .returned := fun id =>
    horder.joinedCook id (by rw [hfin]; trivial)
  have hcourier : ∀ id, courierPc s id = .returned := fun id =>
    horder.joinedCourier id (by rw [hfin]; trivial)
  have hitems := (laws (seen_reachable h)).items
  rw [count_of_finished hfin hcook hcourier (P := stored) rfl,
    count_of_finished hfin hcook hcourier (P := loading) rfl] at hitems
  have hpushes := hbooks.pushes
  have hstops := hbooks.stopsPushed
  have htaken := hbooks.stopsTaken
  have hdelivered := hbooks.deliveries
  simp only [hcook, hcourier, hfin, CookPc.toPush, MainPc.toPush, CourierPc.stopped,
    CourierPc.carrying, Finset.sum_const_zero, Finset.sum_const, Finset.card_univ,
    Fintype.card_fin, nsmul_eq_mul, mul_one, add_zero] at hpushes hstops htaken hdelivered
  obtain ⟨⟨pizzas, rest, hsplit, hpizzas, hrest⟩, htakers⟩ := flow h
  have hlength := congrArg List.length hsplit
  rw [List.length_map, List.length_append] at hlength
  have hrestlen : rest.length = cfg.K := by
    rw [stops_eq, hsplit, List.countP_append, countP_pizzas hpizzas, countP_rest hrest] at hstops
    omega
  -- the couriers have all stop values, so they have everything
  have hall : (pizzas ++ rest).length ≤ s.data.queue_pizzas.popped.length := by
    apply length_le_of_stops hpizzas (by omega)
    have hpopped : s.data.queue_pizzas.popped.map Prod.snd =
        (pizzas ++ rest).take s.data.queue_pizzas.popped.length := by
      rw [← hsplit]
      exact hring.popped
    rw [← hpopped, ← stops_eq, hrestlen]
    exact_mod_cast htaken
  have htake : s.data.queue_pizzas.popped.map Prod.snd =
      s.data.queue_pizzas.pushed.map Prod.snd := by
    have hpopped : s.data.queue_pizzas.popped.map Prod.snd =
        (s.data.queue_pizzas.pushed.map Prod.snd).take s.data.queue_pizzas.popped.length :=
      hring.popped
    rwa [hsplit, List.take_of_length_le hall, ← hsplit] at hpopped
  have heq : s.data.queue_pizzas.popped.length = s.data.queue_pizzas.pushed.length := by
    simpa using congrArg List.length htake
  constructor
  · exact htake
  · exact htakers
  · have hcount : (s.data.queue_pizzas.pushed.countP fun e => 0 ≤ e.2) =
        (s.data.queue_pizzas.pushed.map Prod.snd).countP fun v => 0 ≤ v := by
      rw [List.countP_map]
      rfl
    rw [hcount, hsplit, countP_nonneg hpizzas hrest]
    omega
  · omega
  · intro c
    have hone := hbooks.stopsTakenBy c
    rw [hcourier c] at hone
    have hreturned : CourierPc.returned.stopped = 1 := rfl
    omega
  · constructor
    · have hsem : ((seen s).sem .sem_items : ℤ) = s.sem (.queue .sem_items) := rfl
      have hpopped : ((seen s).data.popped.length : ℤ) = s.data.queue_pizzas.popped.length := rfl
      have hpushed : ((seen s).data.pushed.length : ℤ) = s.data.queue_pizzas.pushed.length := rfl
      omega
    · have hhead : s.data.queue_pizzas.head = s.data.queue_pizzas.popped.length %
        cfg.queue_capacity := hring.head
      have htail : s.data.queue_pizzas.tail = s.data.queue_pizzas.pushed.length %
        cfg.queue_capacity := hring.tail
      rw [hhead, htail, heq]

/-- **The simulation**: at most `N_tables` cooks are at a table, no push blocks
    on the slots, some thread can move until `main` has finished, and then
    everything has been delivered and every courier has its stop value. -/
theorem simulation (cfg : Config) (hN : 0 < cfg.N_tables) (hK : 0 < cfg.K) (s : cfg.State)
    (h : (pizzeria cfg).Reachable s) :
    (Finset.univ.filter fun id => AtTable (cookPc s id)).card ≤ cfg.N_tables ∧
    (∀ t, WaitsForSlot s t → 0 < s.sem (.queue .sem_slots)) ∧
    (mainPc s ≠ .finished → ∃ e, (pizzeria cfg).Enabled s e) ∧
    (mainPc s = .finished → Outcome cfg s) := by
  refine ⟨tables_bound (books h), fun t => slot_free h, ?_, outcome hK h⟩
  intro hrunning
  by_contra hnone
  apply hrunning
  apply finished_of_quiet hN h
  exact stuck_of_not_enabled fun e he => hnone ⟨e, he⟩

/-- One table, one cook with one pizza, one courier. -/
def soloConfig : Config where
  N_tables := 1
  P := 1
  K := 1
  pizzas_to_make _ := 1

/-- A thread of this configuration. -/
def soloCook : soloConfig.Thread := .cook ⟨0, by decide⟩
def soloCourier : soloConfig.Thread := .courier ⟨0, by decide⟩

/-- `main` creates both, the cook makes its pizza, `main` pushes the stop value,
    and the courier takes both values. -/
def soloRun : List (Event soloConfig.Thread Unit) :=
  [.act .main (), .act .main (), .act .main (), .act .main (),
    .act soloCook (), .run soloCook, .act soloCook (), .run soloCook, .run soloCook,
    .act soloCook (), .run soloCook, .run soloCook, .run soloCook, .act soloCook (),
    .run .main, .act .main (), .act .main (), .run .main, .run .main, .act .main (), .run .main,
    .run .main, .act .main (),
    .act soloCourier (), .act soloCourier (), .run soloCourier, .run soloCourier,
    .act soloCourier (), .run soloCourier, .run soloCourier, .run soloCourier,
    .act soloCourier (), .run soloCourier, .act soloCourier (), .run soloCourier,
    .run soloCourier, .act soloCourier (), .run soloCourier, .run soloCourier,
    .run .main, .act .main ()]

theorem simulation_solo : ∃ s, (pizzeria soloConfig).Reachable s ∧ mainPc s = .finished ∧
    (Finset.univ.filter fun id => AtTable (cookPc s id)).card ≤ soloConfig.N_tables ∧
    (∀ t, WaitsForSlot s t → 0 < s.sem (.queue .sem_slots)) ∧
    (mainPc s ≠ .finished → ∃ e, (pizzeria soloConfig).Enabled s e) ∧
    (mainPc s = .finished → Outcome soloConfig s) := by
  have hrun : (replay (threads soloConfig) (init soloConfig fun _ => 0) soloRun).map mainPc =
      some .finished := by decide +kernel
  obtain ⟨s, hreplay, hmain⟩ := Option.map_eq_some_iff.mp hrun
  have hreach : (pizzeria soloConfig).Reachable s :=
    (Run.of_replay hreplay).reachable (.init ⟨_, rfl⟩)
  exact ⟨s, hreach, hmain, simulation soloConfig (by decide) (by decide) s hreach⟩

end Pizzeria
