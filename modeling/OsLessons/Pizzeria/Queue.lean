import OsLessons.Lib.Semaphore

/-! # The queue of the pizzeria

  `queue_push` and `queue_pop` of `lesson7_pizza.c`: a ring buffer guarded by
  three semaphores. Here any number of threads push and pop as often as they
  like.

  `pushed` and `popped` are history: what has been stored and loaded so far, in
  the order of the critical sections, and by whom. `Ring` says what the cells
  hold; `Laws` ties the semaphores to the threads between two of their calls.
-/

namespace Pizzeria

open Lts Semaphore

/-! ### The ring buffer -/

/-- `PizzaQueue`, with its history. -/
structure PizzaQueue (T : Type*) where
  buf : ℕ → ℤ
  capacity : ℕ
  head : ℕ
  tail : ℕ
  pushed : List (T × ℤ)
  popped : List (T × ℤ)

namespace PizzaQueue

variable {T : Type*}

/-- The critical section of `queue_push`. -/
def store (q : PizzaQueue T) (t : T) (value : ℤ) : PizzaQueue T :=
  { q with
    buf := Function.update q.buf q.tail value
    tail := (q.tail + 1) % q.capacity
    pushed := q.pushed ++ [(t, value)] }

/-- The value that the critical section of `queue_pop` reads. -/
def front (q : PizzaQueue T) : ℤ := q.buf q.head

/-- The critical section of `queue_pop`. -/
def load (q : PizzaQueue T) (t : T) : PizzaQueue T :=
  { q with
    head := (q.head + 1) % q.capacity
    popped := q.popped ++ [(t, q.front)] }

/-- The indices count the stores and loads, the cells between them hold the
    values that are not popped yet, and what is popped is what was pushed. -/
structure Ring (cap : ℕ) (q : PizzaQueue T) : Prop where
  capacity : q.capacity = cap
  head : q.head = q.popped.length % cap
  tail : q.tail = q.pushed.length % cap
  cells : ∀ j (h : j < q.pushed.length), q.popped.length ≤ j →
    q.buf (j % cap) = (q.pushed[j]).2
  popped : q.popped.map Prod.snd = (q.pushed.map Prod.snd).take q.popped.length

/-- Two unread positions are in different cells. -/
theorem mod_ne {a b n : ℕ} (hlt : a < b) (hb : b < a + n) : a % n ≠ b % n := by
  intro heq
  have hdvd : n ∣ b - a := (Nat.modEq_iff_dvd' hlt.le).mp heq
  have hle := Nat.le_of_dvd (by omega) hdvd
  omega

/-- A store with room left overwrites no unread value. -/
theorem Ring.store {cap : ℕ} {q : PizzaQueue T} (h : q.Ring cap)
    (hroom : q.pushed.length < q.popped.length + cap) (t : T) (value : ℤ) :
    (q.store t value).Ring cap where
  capacity := h.capacity
  head := h.head
  tail := by
    simp only [PizzaQueue.store, h.tail, h.capacity, List.length_append, List.length_singleton,
      Nat.mod_add_mod]
  cells := by
    intro j hj hunread
    simp only [PizzaQueue.store, List.length_append, List.length_singleton] at hj hunread ⊢
    rcases Nat.lt_or_eq_of_le (Nat.le_of_lt_succ hj) with hlt | rfl
    · rw [h.tail, Function.update_of_ne (mod_ne hlt (by omega)), List.getElem_append_left hlt]
      exact h.cells j hlt hunread
    · rw [h.tail, Function.update_self, List.getElem_append_right le_rfl]
      simp
  popped := by
    have hle : q.popped.length ≤ (q.pushed.map Prod.snd).length := by
      have hlen := congrArg List.length h.popped
      simp only [List.length_map, List.length_take] at hlen ⊢
      omega
    simp only [PizzaQueue.store, List.map_append]
    rw [List.take_append_of_le_length hle]
    exact h.popped

/-- A load takes the oldest unread value. -/
theorem Ring.front {cap : ℕ} {q : PizzaQueue T} (h : q.Ring cap)
    (hne : q.popped.length < q.pushed.length) :
    q.front = (q.pushed[q.popped.length]).2 := by
  rw [PizzaQueue.front, h.head]
  exact h.cells _ hne le_rfl

theorem Ring.load {cap : ℕ} {q : PizzaQueue T} (h : q.Ring cap)
    (hne : q.popped.length < q.pushed.length) (t : T) : (q.load t).Ring cap where
  capacity := h.capacity
  head := by
    simp only [PizzaQueue.load, h.head, h.capacity, List.length_append, List.length_singleton,
      Nat.mod_add_mod]
  tail := h.tail
  cells := by
    intro j hj hunread
    simp only [PizzaQueue.load, List.length_append, List.length_singleton] at hj hunread ⊢
    exact h.cells j hj (by omega)
  popped := by
    have hlt : q.popped.length < (q.pushed.map Prod.snd).length := by simpa using hne
    simp only [PizzaQueue.load, List.map_append, List.length_append, List.length_singleton,
      List.take_succ_eq_append_getElem hlt, h.popped]
    simp [h.front hne]

end PizzaQueue

/-! ### `queue_push` and `queue_pop` -/

inductive QueueSem where
  | sem_slots
  | sem_items
  | sem_queue_mutex
  deriving DecidableEq

instance : Fintype QueueSem where
  elems := {.sem_slots, .sem_items, .sem_queue_mutex}
  complete k := by cases k <;> decide

/-- Program points of `queue_push`: before each semaphore operation, and before
    the critical section. -/
inductive PushPc where
  | waitSlots
  | waitMutex
  | store
  | postMutex
  | postItems
  | returned
  deriving DecidableEq

/-- Program points of `queue_pop`, with the value once it is read. -/
inductive PopPc where
  | waitItems
  | waitMutex
  | load
  | postMutex (value : ℤ)
  | postSlots (value : ℤ)
  | returned (value : ℤ)
  deriving DecidableEq

section code
variable {T : Type*}

def queue_push (t : T) (value : ℤ) : PushPc → Op (PizzaQueue T) QueueSem T Unit PushPc
  | .waitSlots => .wait .sem_slots .waitMutex
  | .waitMutex => .wait .sem_queue_mutex .store
  | .store => .act fun q _ => some (q.store t value, .postMutex)
  | .postMutex => .post .sem_queue_mutex 1 .postItems
  | .postItems => .post .sem_items 1 .returned
  | .returned => .exit

def queue_pop (t : T) : PopPc → Op (PizzaQueue T) QueueSem T Unit PopPc
  | .waitItems => .wait .sem_items .waitMutex
  | .waitMutex => .wait .sem_queue_mutex .load
  | .load => .act fun q _ => some (q.load t, .postMutex q.front)
  | .postMutex value => .post .sem_queue_mutex 1 (.postSlots value)
  | .postSlots value => .post .sem_slots 1 (.returned value)
  | .returned _ => .exit

theorem queue_push_ne_join (t : T) (value : ℤ) (pc : PushPc) (u : T) (l : PushPc) :
    queue_push t value pc ≠ .join u l := by
  cases pc <;> simp [queue_push]

theorem queue_pop_ne_join (t : T) (pc : PopPc) (u : T) (l : PopPc) :
    queue_pop t pc ≠ .join u l := by
  cases pc <;> simp [queue_pop]

end code

/-! ### Any number of clients -/

/-- What a thread wants of the queue. -/
inductive Request where
  | push (value : ℤ)
  | pop
  deriving DecidableEq

instance : Nonempty Request := ⟨.pop⟩

/-- Where a thread is, as far as the queue is concerned. -/
inductive QueuePc where
  | idle
  | pushing (value : ℤ) (pc : PushPc)
  | popping (pc : PopPc)
  deriving DecidableEq

def QueuePc.push (value : ℤ) : PushPc → QueuePc
  | .returned => .idle
  | pc => .pushing value pc

def QueuePc.pop : PopPc → QueuePc
  | .returned _ => .idle
  | pc => .popping pc

section clients
variable {T : Type*}

/-- The call that serves a request. -/
def Request.call : Request → QueuePc
  | .push value => .push value .waitSlots
  | .pop => .pop .waitItems

def client (t : T) : QueuePc → Op (PizzaQueue T) QueueSem T Request QueuePc
  | .idle => .act fun q a => some (q, a.call)
  | .pushing value pc => (queue_push t value pc).embed id (fun _ q => q) id (.push value)
  | .popping pc => (queue_pop t pc).embed id (fun _ q => q) id .pop

def clients : Program (PizzaQueue T) QueueSem Request fun _ : T => QueuePc where
  op := client

/-- After `queue_init` and `sem_init`, with no thread at the queue. -/
structure Fresh (cap : ℕ) (s : Host (PizzaQueue T) QueueSem fun _ : T => QueuePc) : Prop where
  capacity : s.data.capacity = cap
  head : s.data.head = 0
  tail : s.data.tail = 0
  pushed : s.data.pushed = []
  popped : s.data.popped = []
  slots : s.sem .sem_slots = cap
  items : s.sem .sem_items = 0
  mutex : s.sem .sem_queue_mutex = 1
  thread : ∀ t, s.thread t = .idle

variable [DecidableEq T]

/-- Threads that push and pop in any order. -/
def queueSystem (T : Type*) [DecidableEq T] (cap : ℕ) :
    System (Host (PizzaQueue T) QueueSem fun _ : T => QueuePc) (Event T Request) :=
  Semaphore.system clients (Fresh cap)

end clients

/-! ### Semaphores and program points -/

/-- One for the places in `P`. -/
def at_ (P : QueuePc → Bool) (pc : QueuePc) : ℤ := if P pc then 1 else 0

/-- Between the two operations on `sem_queue_mutex`. -/
def inside : QueuePc → Bool
  | .pushing _ .store | .pushing _ .postMutex => true
  | .popping .load | .popping (.postMutex _) => true
  | _ => false

/-- Has a slot, and has not stored the value in it. -/
def storing : QueuePc → Bool
  | .pushing _ .waitMutex | .pushing _ .store => true
  | _ => false

/-- Has stored a value, and has not announced it. -/
def stored : QueuePc → Bool
  | .pushing _ .postMutex | .pushing _ .postItems => true
  | _ => false

/-- Has an item, and has not loaded it. -/
def loading : QueuePc → Bool
  | .popping .waitMutex | .popping .load => true
  | _ => false

/-- Has loaded a value, and has not given the slot back. -/
def loaded : QueuePc → Bool
  | .popping (.postMutex _) | .popping (.postSlots _) => true
  | _ => false

/-- The value that `queue_pop` has read and will return. -/
def returning : QueuePc → Option ℤ
  | .popping (.postMutex value) | .popping (.postSlots value) => some value
  | _ => none

/-- What the caller of `queue_pop` gets when thread `t` performs its next
    operation, if that is the last one. -/
def handed {T : Type*} (t : T) : QueuePc → Option ℤ
  | .popping pc =>
      match queue_pop t pc with
      | .wait _ (.returned value) | .post _ _ (.returned value) => some value
      | _ => none
  | _ => none

section laws
variable {T : Type*} [Fintype T]

/-- How many threads are at places in `P`. -/
def count (P : QueuePc → Bool) (s : Host (PizzaQueue T) QueueSem fun _ : T => QueuePc) : ℤ :=
  ∑ t, at_ P (s.thread t)

theorem count_nonneg (P : QueuePc → Bool)
    (s : Host (PizzaQueue T) QueueSem fun _ : T => QueuePc) : 0 ≤ count P s := by
  apply Finset.sum_nonneg
  intro t _
  unfold at_
  split <;> omega

/-- A thread at a place in `P` is counted. -/
theorem count_pos {P : QueuePc → Bool} {s : Host (PizzaQueue T) QueueSem fun _ : T => QueuePc}
    {t : T} (h : P (s.thread t) = true) : 1 ≤ count P s := by
  have hone : at_ P (s.thread t) = 1 := if_pos h
  rw [← hone]
  apply Finset.single_le_sum (f := fun u => at_ P (s.thread u)) _ (Finset.mem_univ t)
  intro u _
  unfold at_
  split <;> omega

/-- The semaphores count what the history and the places of the threads say. -/
structure Laws (cap : ℕ) (s : Host (PizzaQueue T) QueueSem fun _ : T => QueuePc) : Prop where
  mutex : (s.sem .sem_queue_mutex : ℤ) + count inside s = 1
  slots : (s.sem .sem_slots : ℤ) + s.data.pushed.length + count storing s + count loaded s =
    cap + s.data.popped.length
  items : (s.sem .sem_items : ℤ) + s.data.popped.length + count stored s + count loading s =
    s.data.pushed.length
  /-- slots are only ever given back -/
  slots_ge : (cap : ℤ) ≤ s.sem .sem_slots + s.data.pushed.length + count storing s

variable [DecidableEq T]

/-- What a step of a client does to semaphore `k` plus `f` of the queue plus the
    weights `w` of the places is what its operation does. -/
theorem client_sub {k : QueueSem} {f : PizzaQueue T → ℤ} {w : QueuePc → ℤ} {Q : ℤ → Prop}
    {s s' : Host (PizzaQueue T) QueueSem fun _ : T => QueuePc} {e : Event T Request}
    (h : Step clients s e s')
    (hop : ∀ t pc q, (client t pc).Delta (unit k) f w pc q Q) :
    Q (s'.sem k + f s'.data + ∑ t, w (s'.thread t) -
      (s.sem k + f s.data + ∑ t, w (s.thread t))) := by
  have hsub := h.value_sub (c := unit k) (f := f) (w := fun _ => w) (Q := Q)
    (fun t => hop t _ _) (fun t l hl => by cases hl)
  simpa only [value_unit] using hsub

omit [Fintype T] [DecidableEq T] in
/-- The four laws, operation by operation. -/
theorem client_delta (t : T) (pc : QueuePc) (q : PizzaQueue T) :
    (client t pc).Delta (unit .sem_queue_mutex) (fun _ => 0) (at_ inside) pc q (· = 0) ∧
    (client t pc).Delta (unit .sem_slots) (fun q => q.pushed.length - q.popped.length)
      (fun pc => at_ storing pc + at_ loaded pc) pc q (· = 0) ∧
    (client t pc).Delta (unit .sem_items) (fun q => q.popped.length - q.pushed.length)
      (fun pc => at_ stored pc + at_ loading pc) pc q (· = 0) ∧
    (client t pc).Delta (unit .sem_slots) (fun q => q.pushed.length) (at_ storing) pc q
      (0 ≤ ·) := by
  cases pc with
  | idle =>
    refine ⟨?_, ?_, ?_, ?_⟩ <;>
    · intro a q' l' hl
      cases hl
      cases a <;>
        simp [at_, inside, storing, stored, loading, loaded, Request.call, QueuePc.push,
          QueuePc.pop]
  | pushing v pc =>
    cases pc <;>
      simp [client, queue_push, Op.embed, Op.Delta, PizzaQueue.store, at_, inside, storing, stored,
        loading, loaded, QueuePc.push, unit]
  | popping pc =>
    cases pc <;>
      simp [client, queue_pop, Op.embed, Op.Delta, PizzaQueue.load, at_, inside, storing, stored,
        loading, loaded, QueuePc.pop, unit]

theorem laws_step {cap : ℕ} {s s' : Host (PizzaQueue T) QueueSem fun _ : T => QueuePc}
    {e : Event T Request} (hs : Laws cap s) (h : Step clients s e s') : Laws cap s' := by
  obtain ⟨hmutex, hslots, hitems, hge⟩ := hs
  have h₁ := client_sub h fun t pc q => (client_delta t pc q).1
  have h₂ := client_sub h fun t pc q => (client_delta t pc q).2.1
  have h₃ := client_sub h fun t pc q => (client_delta t pc q).2.2.1
  have h₄ := client_sub h fun t pc q => (client_delta t pc q).2.2.2
  simp only [Finset.sum_add_distrib] at h₁ h₂ h₃ h₄
  unfold count at hmutex hslots hitems hge
  constructor <;>
  · unfold count
    omega

omit [DecidableEq T] in
theorem laws_init {cap : ℕ} {s : Host (PizzaQueue T) QueueSem fun _ : T => QueuePc}
    (hs : Fresh cap s) : Laws cap s := by
  have hidle : ∀ P : QueuePc → Bool, P .idle = false → count P s = 0 := by
    intro P hP
    apply Finset.sum_eq_zero
    intro t _
    rw [hs.thread t, at_, hP]
    rfl
  have hpushed := hs.pushed
  have hpopped := hs.popped
  constructor
  · rw [hs.mutex, hidle inside rfl]
    rfl
  · simp [hs.slots, hpushed, hpopped, hidle storing rfl, hidle loaded rfl]
  · simp [hs.items, hpushed, hpopped, hidle stored rfl, hidle loading rfl]
  · simp [hs.slots, hpushed, hidle storing rfl]

theorem laws {cap : ℕ} {s : Host (PizzaQueue T) QueueSem fun _ : T => QueuePc}
    (h : (queueSystem T cap).Reachable s) : Laws cap s := by
  apply System.invariant _ _ h
  · intro s hs
    exact laws_init hs
  · intro s e s' hs hstep
    exact laws_step hs hstep

omit [DecidableEq T] in
/-- A thread that stores has room, one that loads finds a value. -/
theorem Laws.room {cap : ℕ} {s : Host (PizzaQueue T) QueueSem fun _ : T => QueuePc}
    (hs : Laws cap s) {t : T} (ht : storing (s.thread t) = true) :
    s.data.pushed.length < s.data.popped.length + cap := by
  have hone := count_pos ht
  have hloaded := count_nonneg loaded s
  have := hs.slots
  omega

omit [DecidableEq T] in
theorem Laws.unread {cap : ℕ} {s : Host (PizzaQueue T) QueueSem fun _ : T => QueuePc}
    (hs : Laws cap s) {t : T} (ht : loading (s.thread t) = true) :
    s.data.popped.length < s.data.pushed.length := by
  have hone := count_pos ht
  have hstored := count_nonneg stored s
  have := hs.items
  omega

/-- What a step does to the queue. -/
inductive Does (s : Host (PizzaQueue T) QueueSem fun _ : T => QueuePc) :
    Event T Request → Host (PizzaQueue T) QueueSem (fun _ : T => QueuePc) → Prop where
  | quiet {e s'} (data : s'.data = s.data) (asks : ∀ t a, e = .act t a → s.thread t = .idle)
      (hands : ∀ t, e = .run t → handed t (s.thread t) = none)
      (keeps : ∀ t, returning (s'.thread t) = returning (s.thread t)) : Does s e s'
  | back {t value s'} (before : s.thread t = .popping (.postSlots value))
      (data : s'.data = s.data) (thread : s'.thread = Function.update s.thread t .idle) :
      Does s (.run t) s'
  | store {t a value s'} (before : s.thread t = .pushing value .store)
      (data : s'.data = s.data.store t value)
      (thread : s'.thread = Function.update s.thread t (.pushing value .postMutex)) :
      Does s (.act t a) s'
  | load {t a s'} (before : s.thread t = .popping .load) (data : s'.data = s.data.load t)
      (thread : s'.thread = Function.update s.thread t (.popping (.postMutex s.data.front))) :
      Does s (.act t a) s'

omit [Fintype T] [DecidableEq T] in
/-- A semaphore operation of a client leaves the value that it returns, or hands
    it back. -/
theorem client_keeps {t : T} {pc l : QueuePc}
    (h : (∃ k, client t pc = .wait k l) ∨ ∃ k n, client t pc = .post k n l) :
    (returning l = returning pc ∧ handed t pc = none) ∨
      ∃ v, pc = .popping (.postSlots v) ∧ l = .idle := by
  rcases h with ⟨k, hop⟩ | ⟨k, n, hop⟩
  · cases pc with
    | idle => cases hop
    | pushing value pc =>
      cases pc <;> cases hop
      all_goals exact .inl ⟨rfl, rfl⟩
    | popping pc =>
      cases pc <;> cases hop
      all_goals exact .inl ⟨rfl, rfl⟩
  · cases pc with
    | idle => cases hop
    | pushing value pc =>
      cases pc <;> cases hop
      all_goals exact .inl ⟨rfl, rfl⟩
    | popping pc =>
      cases pc <;> cases hop
      · exact .inl ⟨rfl, rfl⟩
      · exact .inr ⟨_, rfl, rfl⟩

omit [Fintype T] [DecidableEq T] in
theorem client_ne_join (t : T) (pc : QueuePc) (u : T) (l : QueuePc) :
    client t pc ≠ .join u l := by
  cases pc with
  | idle => exact nofun
  | pushing value pc => cases pc <;> exact nofun
  | popping pc => cases pc <;> exact nofun

omit [Fintype T] in
/-- A thread that keeps the value it returns, and the others. -/
theorem returning_goto {s : Host (PizzaQueue T) QueueSem fun _ : T => QueuePc} {t : T}
    {l : QueuePc} (hl : returning l = returning (s.thread t)) (u : T) :
    returning ((s.goto t l).thread u) = returning (s.thread u) := by
  rcases eq_or_ne u t with rfl | hu
  · rw [Host.goto_thread_self, hl]
  · rw [Host.goto_thread_ne s l hu]

omit [Fintype T] in
/-- A semaphore operation is quiet, or the end of `queue_pop`. -/
theorem does_of_keeps {s s' : Host (PizzaQueue T) QueueSem fun _ : T => QueuePc} {t : T}
    {l : QueuePc} (hdata : s'.data = s.data) (hthread : s'.thread = (s.goto t l).thread)
    (h : (returning l = returning (s.thread t) ∧ handed t (s.thread t) = none) ∨
      ∃ v, s.thread t = .popping (.postSlots v) ∧ l = .idle) : Does s (.run t) s' := by
  rcases h with ⟨hl, hnone⟩ | ⟨v, hpc, rfl⟩
  · refine .quiet hdata (fun _ _ h => by cases h) (fun u hu => ?_) fun u => ?_
    · cases hu
      exact hnone
    · rw [hthread]
      exact returning_goto hl u
  · exact .back hpc hdata hthread

omit [Fintype T] in
theorem client_does {s s' : Host (PizzaQueue T) QueueSem fun _ : T => QueuePc}
    {e : Event T Request} (h : Step clients s e s') : Does s e s' := by
  cases h with
  | @wait t k l hop _ => exact does_of_keeps rfl rfl (client_keeps (.inl ⟨k, hop⟩))
  | @post t k n l hop => exact does_of_keeps rfl rfl (client_keeps (.inr ⟨k, n, hop⟩))
  | join hop _ => exact absurd hop (client_ne_join _ _ _ _)
  | @act t a f d l hop hf =>
    change client t (s.thread t) = _ at hop
    cases hpc : s.thread t with
    | idle =>
      rw [hpc] at hop
      cases hop
      cases hf
      refine .quiet rfl (fun _ _ h => by cases h; exact hpc) (fun _ h => by cases h)
        fun u => returning_goto ?_ u
      rw [hpc]
      cases a <;> rfl
    | pushing value pc =>
      rw [hpc] at hop
      cases pc <;> cases hop
      cases hf
      exact .store hpc rfl rfl
    | popping pc =>
      rw [hpc] at hop
      cases pc <;> cases hop
      cases hf
      exact .load hpc rfl rfl
  | signal hl => cases hl

/-- **The ring buffer** holds the unread values, in every reachable state. -/
theorem ring {cap : ℕ} {s : Host (PizzaQueue T) QueueSem fun _ : T => QueuePc}
    (h : (queueSystem T cap).Reachable s) : s.data.Ring cap := by
  apply System.invariant_of (fun _ => laws) _ _ h
  · intro s hs
    have hpushed := hs.pushed
    have hpopped := hs.popped
    constructor
    · exact hs.capacity
    · simp [hs.head, hpopped]
    · simp [hs.tail, hpushed]
    · intro j hj
      simp [hpushed] at hj
    · simp [hpopped]
  · intro s e s' hlaws hring hstep
    cases client_does hstep with
    | quiet hdata | back _ hdata => rwa [hdata]
    | @store t _ value _ ht hdata =>
      rw [hdata]
      exact hring.store (hlaws.room (by rw [ht]; rfl)) t value
    | @load t _ _ ht hdata =>
      rw [hdata]
      exact hring.load (hlaws.unread (by rw [ht]; rfl)) t

end laws

end Pizzeria
