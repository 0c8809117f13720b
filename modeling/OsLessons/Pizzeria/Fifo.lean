import OsLessons.Pizzeria.Queue

/-! # The queue is a bounded FIFO

  An observer keeps for every cell whether it has been written since it was
  last read, and for every call of `queue_pop`, in the order of their critical
  sections, what it has returned. `bounded_fifo`: what is returned is what was
  pushed, in the same order, a push finds its cell read and a pop finds its
  cell written, and no more than `capacity` values are unread.
-/

namespace Pizzeria

open Lts Semaphore

/-! ### The observer -/

/-- What the observer has seen. -/
structure Notes (T : Type*) where
  /-- the cells that have been written since they were last read -/
  written : ℕ → Bool
  /-- the calls of `queue_pop` that are past their critical section, in the order
      of those; who called, and what has been returned -/
  pops : List (T × Option ℤ)

variable {T : Type*} [DecidableEq T] {cap : ℕ}
  {s s' : Host (PizzaQueue T) QueueSem fun _ : T => QueuePc} {e : Event T Request}
  {notes : Notes T}

/-- A store writes the cell at `tail`, a load reads the cell at `head`. -/
def mark (q : PizzaQueue T) (t : T) (notes : Notes T) : QueuePc → Notes T
  | .pushing _ .store => { notes with written := Function.update notes.written q.tail true }
  | .popping .load =>
      { written := Function.update notes.written q.head false, pops := notes.pops ++ [(t, none)] }
  | _ => notes

/-- The call of thread `t` that is under way returns `value`. -/
def settle (t : T) (value : ℤ) (c : T × Option ℤ) : T × Option ℤ :=
  if c = (t, none) then (t, some value) else c

/-- The thread that executes its own code is at a place that says what it does;
    what is handed back to a caller is seen at the operation that does it. -/
def note (s : Host (PizzaQueue T) QueueSem fun _ : T => QueuePc) (e : Event T Request)
    (notes : Notes T) : Notes T :=
  match e with
  | .act t _ => mark s.data t notes (s.thread t)
  | .run t =>
      match handed t (s.thread t) with
      | some value => { notes with pops := notes.pops.map (settle t value) }
      | none => notes
  | .signal _ => notes

/-- The clients of the queue, observed. -/
def observedQueue (T : Type*) [DecidableEq T] (cap : ℕ) :
    System (Host (PizzaQueue T) QueueSem (fun _ : T => QueuePc) × Notes T) (Event T Request) :=
  (queueSystem T cap).observe { written := fun _ => false, pops := [] } note

theorem note_quiet (h : ∀ t a, e = .act t a → s.thread t = .idle)
    (hands : ∀ t, e = .run t → handed t (s.thread t) = none) : note s e notes = notes := by
  cases e with
  | run t =>
    unfold note
    simp only [hands t rfl]
  | act t a =>
    change mark s.data t notes (s.thread t) = notes
    rw [h t a rfl]
    rfl
  | signal t => rfl

/-- The last operation of `queue_pop` hands the value back. -/
theorem note_back {t : T} {value : ℤ} (h : s.thread t = .popping (.postSlots value)) :
    note s (.run t) notes = { notes with pops := notes.pops.map (settle t value) } := by
  have hhanded : handed t (s.thread t) = some value := by rw [h]; rfl
  unfold note
  simp only [hhanded]

/-! ### The cells -/

section cells
variable {written : ℕ → Bool}

/-- The cells of the unread values are the written ones. -/
def Unread (cap : ℕ) (q : PizzaQueue T) (written : ℕ → Bool) : Prop :=
  ∀ i, written i = true ↔ ∃ j, q.popped.length ≤ j ∧ j < q.pushed.length ∧ j % cap = i

omit [DecidableEq T] in
theorem Unread.store {q : PizzaQueue T} (hring : q.Ring cap) (h : Unread cap q written)
    (hle : q.popped.length ≤ q.pushed.length) (t : T) (value : ℤ) :
    Unread cap (q.store t value) (Function.update written q.tail true) := by
  intro i
  have hlen : (q.store t value).pushed.length = q.pushed.length + 1 := by
    simp [PizzaQueue.store]
  change _ ↔ ∃ j, q.popped.length ≤ j ∧ j < (q.store t value).pushed.length ∧ _
  rw [hlen, hring.tail]
  by_cases hi : i = q.pushed.length % cap
  · subst hi
    rw [Function.update_self]
    exact iff_of_true rfl ⟨q.pushed.length, hle, Nat.lt_succ_self _, rfl⟩
  · rw [Function.update_of_ne hi, h i]
    constructor
    · rintro ⟨j, hj, hlt, hmod⟩
      exact ⟨j, hj, Nat.lt_succ_of_lt hlt, hmod⟩
    · rintro ⟨j, hj, hlt, hmod⟩
      refine ⟨j, hj, lt_of_le_of_ne (Nat.le_of_lt_succ hlt) ?_, hmod⟩
      rintro rfl
      exact hi hmod.symm

omit [DecidableEq T] in
theorem Unread.load {q : PizzaQueue T} (hring : q.Ring cap) (h : Unread cap q written)
    (hle : q.pushed.length ≤ q.popped.length + cap) (t : T) :
    Unread cap (q.load t) (Function.update written q.head false) := by
  intro i
  have hlen : (q.load t).popped.length = q.popped.length + 1 := by
    simp [PizzaQueue.load]
  change _ ↔ ∃ j, (q.load t).popped.length ≤ j ∧ j < q.pushed.length ∧ _
  rw [hlen, hring.head]
  by_cases hi : i = q.popped.length % cap
  -- the other unread values are in other cells
  · subst hi
    rw [Function.update_self]
    refine iff_of_false Bool.false_ne_true ?_
    rintro ⟨j, hj, hlt, hmod⟩
    exact PizzaQueue.mod_ne (Nat.lt_of_succ_le hj) (lt_of_lt_of_le hlt hle) hmod.symm
  · rw [Function.update_of_ne hi, h i]
    constructor
    · rintro ⟨j, hj, hlt, hmod⟩
      refine ⟨j, Nat.succ_le_of_lt (lt_of_le_of_ne hj ?_), hlt, hmod⟩
      rintro rfl
      exact hi hmod.symm
    · rintro ⟨j, hj, hlt, hmod⟩
      exact ⟨j, Nat.le_of_succ_le hj, hlt, hmod⟩

end cells

/-! ### Bounds -/

section bounds
variable [Fintype T]

omit [DecidableEq T] in
theorem Laws.bound (h : Laws cap s) : s.data.pushed.length ≤ s.data.popped.length + cap := by
  have hstoring := count_nonneg storing s
  have hloaded := count_nonneg loaded s
  have := h.slots
  omega

omit [DecidableEq T] in
theorem Laws.le (h : Laws cap s) : s.data.popped.length ≤ s.data.pushed.length := by
  have hstored := count_nonneg stored s
  have hloading := count_nonneg loading s
  have := h.items
  omega

omit [DecidableEq T] in
/-- Only one thread at a time has `sem_queue_mutex`. -/
theorem Laws.exclusive (h : Laws cap s) {t u : T} (ht : inside (s.thread t) = true)
    (hu : inside (s.thread u) = true) : t = u := by
  by_contra hne
  have hpair : at_ inside (s.thread t) + at_ inside (s.thread u) ≤ count inside s := by
    classical
    rw [← Finset.sum_pair (f := fun v => at_ inside (s.thread v)) hne]
    refine Finset.sum_le_sum_of_subset_of_nonneg (Finset.subset_univ _) fun v _ _ => ?_
    unfold at_
    split <;> omega
  rw [at_, if_pos ht, at_, if_pos hu] at hpair
  have := h.mutex
  omega

theorem unread_observed (h : (observedQueue T cap).Reachable (s, notes)) :
    Unread cap s.data notes.written := by
  refine System.invariant_of (J := fun s => (queueSystem T cap).Reachable s.1)
    (I := fun s => Unread cap s.1.data s.2.written) (fun _ => System.Reachable.of_observe) ?_ ?_ h
  · rintro ⟨s, _⟩ ⟨hs, rfl⟩ i
    refine iff_of_false Bool.false_ne_true ?_
    rintro ⟨j, _, hj, _⟩
    have hpushed : s.data.pushed = [] := hs.pushed
    rw [hpushed] at hj
    exact Nat.not_lt_zero j hj
  · rintro ⟨s, notes⟩ e ⟨s', _⟩ hreach hunread ⟨hstep, rfl⟩
    have hlaws := laws hreach
    have hring := ring hreach
    change Unread cap s'.data (note s e notes).written
    cases client_does hstep with
    | quiet hdata hasks hhands _ => rwa [hdata, note_quiet hasks hhands]
    | @back t value _ ht hdata _ => rwa [hdata, note_back ht]
    | @store t a value _ ht hdata _ =>
      change Unread cap s'.data (mark s.data t notes (s.thread t)).written
      rw [ht, hdata]
      exact hunread.store hring hlaws.le t value
    | @load t a _ ht hdata _ =>
      change Unread cap s'.data (mark s.data t notes (s.thread t)).written
      rw [ht, hdata]
      exact hunread.load hring hlaws.bound t

/-! ### What is returned -/

/-- The call `c` of `queue_pop` has returned what its critical section has read,
    or is on its way back with it. -/
def Returns (s : Host (PizzaQueue T) QueueSem fun _ : T => QueuePc) (c : T × Option ℤ)
    (p : T × ℤ) : Prop :=
  c.1 = p.1 ∧ (c.2 = some p.2 ∨ c.2 = none ∧ returning (s.thread p.1) = some p.2)

/-- The calls that the observer has seen are those of the critical sections, and
    they are under way as long as their threads are. -/
structure Booked (s : Host (PizzaQueue T) QueueSem fun _ : T => QueuePc)
    (pops : List (T × Option ℤ)) : Prop where
  returns : List.Forall₂ (Returns s) pops s.data.popped
  underWay : ∀ t, (t, none) ∈ pops ↔ (returning (s.thread t)).isSome

variable {pops : List (T × Option ℤ)}

omit [Fintype T] [DecidableEq T] in
/-- Nothing is seen as long as no thread reads a value or hands one back. -/
theorem Booked.quiet (h : Booked s pops) (hdata : s'.data.popped = s.data.popped)
    (hkeeps : ∀ t, returning (s'.thread t) = returning (s.thread t)) : Booked s' pops where
  returns := by
    rw [hdata]
    refine h.returns.imp fun c p hc => ?_
    rwa [Returns, hkeeps]
  underWay t := by rw [h.underWay, hkeeps]

omit [Fintype T] in
/-- `queue_pop` returns what it has read. -/
theorem Booked.back (h : Booked s pops) {t : T} {value : ℤ}
    (ht : s.thread t = .popping (.postSlots value)) (hdata : s'.data = s.data)
    (hthread : s'.thread = Function.update s.thread t .idle) :
    Booked s' (pops.map (settle t value)) where
  returns := by
    rw [hdata, List.forall₂_map_left_iff]
    refine h.returns.imp fun c p hc => ?_
    obtain ⟨hcaller, hvalue⟩ := hc
    unfold settle
    split
    · next hc =>
      subst hc
      rcases hvalue with hsome | ⟨-, hway⟩
      · cases hsome
      · rw [← hcaller, ht] at hway
        exact ⟨hcaller, .inl hway⟩
    · next hc =>
      refine ⟨hcaller, hvalue.imp_right fun hway => ⟨hway.1, ?_⟩⟩
      have hne : p.1 ≠ t := by
        rintro rfl
        exact hc (Prod.ext hcaller hway.1)
      rw [hthread, Function.update_of_ne hne]
      exact hway.2
  underWay u := by
    rw [hthread]
    rcases eq_or_ne u t with rfl | hu
    · rw [Function.update_self]
      refine iff_of_false (fun hmem => ?_) Bool.false_ne_true
      obtain ⟨c, -, hc⟩ := List.mem_map.mp hmem
      unfold settle at hc
      split at hc
      · cases hc
      · next hne => exact hne hc
    · rw [Function.update_of_ne hu, ← h.underWay]
      constructor
      · intro hmem
        obtain ⟨c, hc, heq⟩ := List.mem_map.mp hmem
        unfold settle at heq
        split at heq
        · cases heq
        · rwa [← heq]
      · intro hmem
        refine List.mem_map.mpr ⟨_, hmem, if_neg fun heq => hu (congrArg Prod.fst heq)⟩

omit [Fintype T] in
/-- A load is a new call under way. -/
theorem Booked.load (h : Booked s pops) {t : T} (ht : s.thread t = .popping .load)
    (hdata : s'.data = s.data.load t)
    (hthread : s'.thread = Function.update s.thread t (.popping (.postMutex s.data.front))) :
    Booked s' (pops ++ [(t, none)]) where
  returns := by
    rw [hdata]
    refine List.rel_append (h.returns.imp fun c p hc => ?_) (.cons ⟨rfl, .inr ⟨rfl, ?_⟩⟩ .nil)
    · refine ⟨hc.1, hc.2.imp_right fun hway => ⟨hway.1, ?_⟩⟩
      have hne : p.1 ≠ t := by
        intro heq
        have hnone := hway.2
        rw [heq, ht] at hnone
        cases hnone
      rw [hthread, Function.update_of_ne hne]
      exact hway.2
    · rw [hthread, Function.update_self]
      rfl
  underWay u := by
    rw [hthread, List.mem_append, List.mem_singleton, h.underWay]
    rcases eq_or_ne u t with rfl | hu
    · rw [Function.update_self]
      exact iff_of_true (.inr rfl) rfl
    · rw [Function.update_of_ne hu, or_iff_left fun heq => hu (congrArg Prod.fst heq)]

omit [Fintype T] in
/-- A store is nothing to those who pop. -/
theorem returning_store {t : T} {value : ℤ} (ht : s.thread t = .pushing value .store)
    (hthread : s'.thread = Function.update s.thread t (.pushing value .postMutex)) (u : T) :
    returning (s'.thread u) = returning (s.thread u) := by
  rw [hthread]
  rcases eq_or_ne u t with rfl | hu
  · rw [Function.update_self, ht]
    rfl
  · rw [Function.update_of_ne hu]

omit [Fintype T] in
theorem booked_observed (h : (observedQueue T cap).Reachable (s, notes)) :
    Booked s notes.pops := by
  refine System.invariant (I := fun s => Booked s.1 s.2.pops) ?_ ?_ h
  · rintro ⟨s, _⟩ ⟨hs, rfl⟩
    have hpopped : s.data.popped = [] := hs.popped
    constructor
    · rw [hpopped]
      exact .nil
    · intro t
      have hidle : s.thread t = .idle := hs.thread t
      rw [hidle]
      exact iff_of_false List.not_mem_nil Bool.false_ne_true
  · rintro ⟨s, notes⟩ e ⟨s', _⟩ hbooked ⟨hstep, rfl⟩
    change Booked s' (note s e notes).pops
    cases client_does hstep with
    | quiet hdata hasks hhands hkeeps =>
      rw [note_quiet hasks hhands]
      exact hbooked.quiet (by rw [hdata]) hkeeps
    | @back t value _ ht hdata hthread =>
      rw [note_back ht]
      exact hbooked.back ht hdata hthread
    | @store t a value _ ht hdata hthread =>
      change Booked s' (mark s.data t notes (s.thread t)).pops
      rw [ht]
      exact hbooked.quiet (by rw [hdata]; rfl) (returning_store ht hthread)
    | @load t a _ ht hdata hthread =>
      change Booked s' (mark s.data t notes (s.thread t)).pops
      rw [ht]
      exact hbooked.load ht hdata hthread

omit [Fintype T] [DecidableEq T] in
/-- The call with the `k`-th critical section returns the `k`-th value. -/
theorem Booked.getElem? (h : Booked s pops)
    (hpushed : s.data.popped.map Prod.snd <+: s.data.pushed.map Prod.snd) {k : ℕ} {t : T} {v : ℤ}
    (hk : pops[k]? = some (t, some v)) : (s.data.pushed.map Prod.snd)[k]? = some v := by
  obtain ⟨hlt, hget⟩ := List.getElem?_eq_some_iff.mp hk
  have hlt' : k < s.data.popped.length := by
    rw [← h.returns.length_eq]
    exact hlt
  have hreturns := h.returns.get hlt hlt'
  simp only [List.get_eq_getElem, hget] at hreturns
  have hvalue : v = (s.data.popped[k]).2 := by
    rcases hreturns.2 with hsome | ⟨hnone, -⟩
    · exact Option.some.inj hsome
    · cases hnone
  have hkth := List.prefix_iff_getElem?.mp hpushed k (by simpa using hlt')
  rw [hkth, List.getElem_map, hvalue]

omit [Fintype T] [DecidableEq T] in
/-- When no call is under way, the values returned are a prefix. -/
theorem Booked.all_returned (h : Booked s pops)
    (hpushed : s.data.popped.map Prod.snd <+: s.data.pushed.map Prod.snd)
    (hdone : ∀ t, returning (s.thread t) = none) :
    pops.map Prod.snd <+: s.data.pushed.map (some ∘ Prod.snd) := by
  have hpops : pops.map Prod.snd = (s.data.popped.map Prod.snd).map some := by
    rw [List.map_map, ← List.forall₂_eq_eq_eq, List.forall₂_map_left_iff,
      List.forall₂_map_right_iff]
    refine h.returns.imp fun c p hc => ?_
    rcases hc.2 with hsome | ⟨-, hway⟩
    · exact hsome
    · rw [hdone] at hway
      cases hway
  rw [hpops, ← List.map_map]
  exact hpushed.map some

/-- **A bounded FIFO**: whatever the threads do, in the order of the critical
    sections, which exclude one another, the values read by the pops are a prefix
    of the pushed ones, and each is what that call of `queue_pop` returns; a push
    writes a cell with no unread value, a pop reads a cell written since it was
    last read, both within the buffer; and at most `capacity` values are unread. -/
theorem bounded_fifo (hcap : 1 ≤ cap) (h : (observedQueue T cap).Reachable (s, notes)) :
    s.data.popped.map Prod.snd <+: s.data.pushed.map Prod.snd ∧
    Booked s notes.pops ∧
    (∀ (k : ℕ) t v, notes.pops[k]? = some (t, some v) →
      (s.data.pushed.map Prod.snd)[k]? = some v) ∧
    ((∀ t, returning (s.thread t) = none) →
      notes.pops.map Prod.snd <+: s.data.pushed.map (some ∘ Prod.snd)) ∧
    (∀ t u, inside (s.thread t) = true → inside (s.thread u) = true → t = u) ∧
    (∀ t value, s.thread t = .pushing value .store →
      s.data.tail < cap ∧ notes.written s.data.tail = false) ∧
    (∀ t, s.thread t = .popping .load →
      s.data.head < cap ∧ notes.written s.data.head = true) ∧
    s.data.pushed.length - s.data.popped.length ≤ cap := by
  have hreach : (queueSystem T cap).Reachable s := h.of_observe
  have hlaws := laws hreach
  have hring := ring hreach
  have hunread := unread_observed h
  have hbooked := booked_observed h
  have htaken : s.data.popped.map Prod.snd <+: s.data.pushed.map Prod.snd := by
    rw [hring.popped]
    exact List.take_prefix _ _
  refine ⟨htaken, hbooked, fun k t v => hbooked.getElem? htaken, hbooked.all_returned htaken,
    fun t u => hlaws.exclusive, ?_, ?_, ?_⟩
  · intro t value ht
    have hroom := hlaws.room (t := t) (by rw [ht]; rfl)
    rw [hring.tail]
    refine ⟨Nat.mod_lt _ hcap, Bool.eq_false_iff.mpr fun hwritten => ?_⟩
    obtain ⟨j, hj, hlt, hmod⟩ := (hunread _).mp hwritten
    exact PizzaQueue.mod_ne hlt (by omega) hmod
  · intro t ht
    have hne := hlaws.unread (t := t) (by rw [ht]; rfl)
    rw [hring.head]
    exact ⟨Nat.mod_lt _ hcap, (hunread _).mpr ⟨_, le_rfl, hne, rfl⟩⟩
  · have hbound := hlaws.bound
    omega

end bounds

/-! ### A run -/

/-- After `queue_init` and `sem_init` with one cell. -/
def oneCell : Host (PizzaQueue Bool) QueueSem fun _ : Bool => QueuePc where
  data := { buf := fun _ => 0, capacity := 1, head := 0, tail := 0, pushed := [], popped := [] }
  sem
    | .sem_slots => 1
    | .sem_items => 0
    | .sem_queue_mutex => 1
  thread _ := .idle

/-- One thread pushes 7, the other pops it. -/
def sevenRun : List (Event Bool Request) :=
  [.act false (.push 7), .run false, .run false, .act false .pop, .run false, .run false] ++
    [.act true .pop, .run true, .run true, .act true .pop, .run true, .run true]

/-- What is returned is what was pushed. -/
theorem bounded_fifo_seven : ∃ s notes, (observedQueue Bool 1).Reachable (s, notes) ∧
    (∀ t, s.thread t = .idle) ∧ notes.pops = [(true, some 7)] ∧
    (s.data.pushed.map Prod.snd)[0]? = some 7 := by
  have hrun : (System.follow (fun r e => (next clients r.1 e).map fun s => (s, note r.1 e r.2))
      (oneCell, ⟨fun _ => false, []⟩) sevenRun).any (fun r =>
        decide (∀ t, r.1.thread t = .idle) && r.2.pops == [(true, some 7)]) = true := by
    decide
  obtain ⟨⟨s, notes⟩, hs, hprop⟩ := (Option.any_eq_true _ _).mp hrun
  simp only [Bool.and_eq_true, decide_eq_true_eq, beq_iff_eq] at hprop
  have hfresh : Fresh 1 oneCell := ⟨rfl, rfl, rfl, rfl, rfl, rfl, rfl, rfl, fun _ => rfl⟩
  have hreach : (observedQueue Bool 1).Reachable (s, notes) := by
    refine (System.Run.of_follow ?_ hs).reachable (.init ⟨hfresh, rfl⟩)
    intro r e r' hnext
    obtain ⟨s', hs', rfl⟩ := Option.map_eq_some_iff.mp hnext
    exact ⟨step_of_next hs', rfl⟩
  obtain ⟨-, -, hreturned, -⟩ := bounded_fifo le_rfl hreach
  exact ⟨s, notes, hreach, hprop.1, hprop.2, hreturned 0 true 7 (by rw [hprop.2]; rfl)⟩

end Pizzeria
