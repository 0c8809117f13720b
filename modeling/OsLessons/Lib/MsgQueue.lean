import OsLessons.Lib.Transition
import OsLessons.Lib.Census

/-! # Processes over a SysV message queue

  A queue is the list of its messages in the order they were sent. `msgrcv`
  with a positive type takes the first message of that type, so the queue is
  as good as one FIFO per type: `box mtype t q`.

  A process is a local state and a program that says what it does next
  (`Op`): one system call and what the process makes of its result. `next`
  performs that call on the shared state; `Step` lists what it can do.
-/

namespace MsgQueue

open Lts

/-! ### Queues -/

section queues
variable {M : Type*} (mtype : M → ℕ)

/-- The messages of type `t`, oldest first. -/
def box (t : ℕ) (q : List M) : List M := q.filter fun m => mtype m = t

/-- Take the first message of type `t`. -/
def recv (t : ℕ) (q : List M) : Option (M × List M) :=
  (q.find? fun m => mtype m = t).map fun m => (m, q.eraseP fun m => mtype m = t)

/-- There is room for one more message; a capacity `none` is unbounded. -/
def room (cap : Option ℕ) (q : List M) : Prop := ∀ Q ∈ cap, q.length < Q

instance (cap : Option ℕ) (q : List M) : Decidable (room cap q) :=
  decidable_of_iff (cap.all fun Q => decide (q.length < Q)) (by simp [room, Option.all_eq_true])

variable {mtype}

@[simp] theorem box_nil (t : ℕ) : box mtype t [] = [] := rfl

theorem box_snoc (t : ℕ) (q : List M) (m : M) :
    box mtype t (q ++ [m]) = box mtype t q ++ if mtype m = t then [m] else [] := by
  by_cases h : mtype m = t <;> simp [box, h]

theorem mem_box {t : ℕ} {m : M} {q : List M} : m ∈ box mtype t q ↔ m ∈ q ∧ mtype m = t := by
  simp [box]

/-- `msgrcv` finds nothing exactly if there is no message of the type. -/
theorem recv_eq_none {t : ℕ} {q : List M} : recv mtype t q = none ↔ box mtype t q = [] := by
  simp [recv, box, List.find?_eq_none, List.filter_eq_nil_iff]

/-- What `msgrcv` takes is the head of its box; the other boxes stay as they are. -/
theorem recv_eq_some {t : ℕ} {q q' : List M} {m : M} (h : recv mtype t q = some (m, q')) :
    mtype m = t ∧ box mtype t q = m :: box mtype t q' ∧
      (∀ t' ≠ t, box mtype t' q' = box mtype t' q) ∧ q.Perm (m :: q') := by
  induction q generalizing q' with
  | nil => simp [recv] at h
  | cons a q ih =>
    by_cases ha : mtype a = t
    · simp only [recv, List.find?_cons, ha, decide_true, List.eraseP_cons, Option.map_some,
        Option.some.injEq, Prod.mk.injEq, cond_true] at h
      obtain ⟨rfl, rfl⟩ := h
      refine ⟨ha, by simp [box, ha], ?_, List.Perm.refl _⟩
      intro t' ht'
      simp [box, show mtype a ≠ t' from fun h' => ht' (h' ▸ ha)]
    -- `a` has another type: the message is found in the rest
    · have hrec : ∃ q₁, recv mtype t q = some (m, q₁) ∧ q' = a :: q₁ := by
        simp only [recv, List.find?_cons, ha, decide_false, List.eraseP_cons, cond_false,
          Option.map_eq_some_iff, Prod.mk.injEq] at h
        obtain ⟨m', hfind, rfl, rfl⟩ := h
        exact ⟨q.eraseP fun m => mtype m = t, by simp [recv, hfind], rfl⟩
      obtain ⟨q₁, hq₁, rfl⟩ := hrec
      obtain ⟨htype, hbox, hother, hperm⟩ := ih hq₁
      refine ⟨htype, by simpa [box, ha] using hbox, ?_, ?_⟩
      · intro t' ht'
        have := hother t' ht'
        simp only [box] at this
        simp [box, List.filter_cons, this]
      · exact (hperm.cons a).trans (List.Perm.swap m a q₁)

/-- The boxes of all types that occur make up the queue. -/
theorem length_eq_sum_box (ts : Finset ℕ) {q : List M} (h : ∀ m ∈ q, mtype m ∈ ts) :
    q.length = ∑ t ∈ ts, (box mtype t q).length := by
  induction q with
  | nil => simp
  | cons a q ih =>
    have hq := ih fun m hm => h m (List.mem_cons_of_mem _ hm)
    have hcons : ∀ t, (box mtype t (a :: q)).length =
        (box mtype t q).length + if mtype a = t then 1 else 0 := by
      intro t
      by_cases ht : mtype a = t <;> simp [box, ht]
    simp only [hcons, Finset.sum_add_distrib, Finset.sum_ite_eq, h a (by simp), ↓reduceIte,
      List.length_cons, hq]

end queues

/-! ### Processes -/

/-- What a process does next. `k` gives its local state after the call; a
    failed `msgsnd` passes `false`, a failed `msgrcv` passes `none`. -/
inductive Op (M L : Type*) where
  | msgsnd (m : M) (k : Bool → L)
  | msgrcv (t : ℕ) (nowait : Bool) (k : Option M → L)
  | write (c : UInt8) (k : L)
  | rmid (k : L)
  /-- local computation only -/
  | compute (k : L)
  | halt

/-- Whatever the call returns, the process goes on in a local state with `Q`. -/
def Op.Then {M L : Type*} (Q : L → Prop) : Op M L → Prop
  | .msgsnd _ k => ∀ ok, Q (k ok)
  | .msgrcv _ _ k => ∀ r, Q (k r)
  | .write _ k | .rmid k | .compute k => Q k
  | .halt => True

/-- The call does not block, and the process goes on. -/
def Op.Free {M L : Type*} : Op M L → Prop
  | .msgrcv _ nowait _ => nowait = true
  | .write _ _ | .rmid _ | .compute _ => True
  | .msgsnd _ _ | .halt => False

section thens
variable {M L : Type*} {Q : L → Prop}

@[simp] theorem Op.then_msgsnd {m : M} {k : Bool → L} :
    (Op.msgsnd m k).Then Q ↔ Q (k true) ∧ Q (k false) := by simp [Op.Then, and_comm]
@[simp] theorem Op.then_msgrcv {t : ℕ} {nowait : Bool} {k : Option M → L} :
    (Op.msgrcv t nowait k).Then Q ↔ (∀ m, Q (k (some m))) ∧ Q (k none) := by
  simp [Op.Then, Option.forall, and_comm]
@[simp] theorem Op.then_write {c : UInt8} {k : L} :
    (Op.write c k : Op M L).Then Q ↔ Q k := Iff.rfl
@[simp] theorem Op.then_rmid {k : L} : (Op.rmid k : Op M L).Then Q ↔ Q k := Iff.rfl
@[simp] theorem Op.then_compute {k : L} : (Op.compute k : Op M L).Then Q ↔ Q k := Iff.rfl
@[simp] theorem Op.then_halt : (Op.halt : Op M L).Then Q := trivial

end thens

/-- What a process did. -/
inductive Call (M : Type*) where
  | sent (m : M)
  | received (m : M)
  /-- `ENOMSG`, or the queue has been removed -/
  | failed
  | wrote (c : UInt8)
  | removed
  | computed
  deriving DecidableEq

/-- The queue (`none` once removed), the processes, and what was written to
    standard output and by whom. -/
structure Host (M L P : Type*) where
  queue : Option (List M)
  proc : P → L
  out : List (P × UInt8)

variable {M L P : Type*} [DecidableEq P] {mtype : M → ℕ}

/-- Set the local state of process `p`. -/
def Host.goto (s : Host M L P) (p : P) (l : L) : Host M L P :=
  { s with proc := Function.update s.proc p l }

@[simp] theorem Host.goto_queue (s : Host M L P) (p : P) (l : L) :
    (s.goto p l).queue = s.queue := rfl
@[simp] theorem Host.goto_out (s : Host M L P) (p : P) (l : L) : (s.goto p l).out = s.out := rfl
@[simp] theorem Host.goto_proc_self (s : Host M L P) (p : P) (l : L) :
    (s.goto p l).proc p = l := Function.update_self ..
theorem Host.goto_proc_ne (s : Host M L P) {p p' : P} (l : L) (h : p' ≠ p) :
    (s.goto p l).proc p' = s.proc p' := Function.update_of_ne h ..

/-- Perform the next call of process `p`; `none` if it blocks or has ended. -/
def next (mtype : M → ℕ) (cap : Option ℕ) (op : P → L → Op M L) (s : Host M L P) (p : P) :
    Option (Host M L P × Call M) :=
  match op p (s.proc p), s.queue with
  | .msgsnd m k, some q =>
      if room cap q then some ({ s with queue := some (q ++ [m]) }.goto p (k true), .sent m)
      else none
  | .msgsnd _ k, none => some (s.goto p (k false), .failed)
  | .msgrcv t nowait k, some q =>
      match recv mtype t q with
      | some (m, q') => some ({ s with queue := some q' }.goto p (k (some m)), .received m)
      | none => if nowait then some (s.goto p (k none), .failed) else none
  | .msgrcv _ _ k, none => some (s.goto p (k none), .failed)
  | .write c k, _ => some ({ s with out := s.out ++ [(p, c)] }.goto p k, .wrote c)
  | .rmid k, _ => some ({ s with queue := none }.goto p k, .removed)
  | .compute k, _ => some (s.goto p k, .computed)
  | .halt, _ => none

/-- What one step of process `p` can be. -/
inductive Step (mtype : M → ℕ) (cap : Option ℕ) (op : P → L → Op M L) (s : Host M L P) (p : P) :
    Host M L P → Call M → Prop where
  | sent {m k q} : op p (s.proc p) = .msgsnd m k → s.queue = some q → room cap q →
      Step mtype cap op s p ({ s with queue := some (q ++ [m]) }.goto p (k true)) (.sent m)
  | received {t nowait k q m q'} : op p (s.proc p) = .msgrcv t nowait k → s.queue = some q →
      recv mtype t q = some (m, q') →
      Step mtype cap op s p ({ s with queue := some q' }.goto p (k (some m))) (.received m)
  | enomsg {t k q} : op p (s.proc p) = .msgrcv t true k → s.queue = some q →
      recv mtype t q = none → Step mtype cap op s p (s.goto p (k none)) .failed
  | not_sent {m k} : op p (s.proc p) = .msgsnd m k → s.queue = none →
      Step mtype cap op s p (s.goto p (k false)) .failed
  | not_received {t nowait k} : op p (s.proc p) = .msgrcv t nowait k → s.queue = none →
      Step mtype cap op s p (s.goto p (k none)) .failed
  | wrote {c k} : op p (s.proc p) = .write c k →
      Step mtype cap op s p ({ s with out := s.out ++ [(p, c)] }.goto p k) (.wrote c)
  | removed {k} : op p (s.proc p) = .rmid k →
      Step mtype cap op s p ({ s with queue := none }.goto p k) .removed
  | computed {k} : op p (s.proc p) = .compute k →
      Step mtype cap op s p (s.goto p k) .computed

theorem step_of_next {cap : Option ℕ} {op : P → L → Op M L} {s s' : Host M L P} {p : P}
    {call : Call M} (h : next mtype cap op s p = some (s', call)) :
    Step mtype cap op s p s' call := by
  unfold next at h
  split at h
  · next m k q hop hq =>
    split at h
    · next hroom => cases h; exact .sent hop hq hroom
    · cases h
  · next m k hop hq => cases h; exact .not_sent hop hq
  · next t nowait k q hop hq =>
    split at h
    · next m q' hr => cases h; exact .received hop hq hr
    · next hr =>
      split at h
      · next hn => subst hn; cases h; exact .enomsg hop hq hr
      · cases h
  · next t nowait k hop hq => cases h; exact .not_received hop hq
  · next c k hop => cases h; exact .wrote hop
  · next k hop => cases h; exact .removed hop
  · next k hop => cases h; exact .computed hop
  · cases h

/-- A process that cannot step has ended, waits for a message of a type the
    queue does not hold, or waits for room in the queue. -/
theorem next_eq_none {cap : Option ℕ} {op : P → L → Op M L} {s : Host M L P} {p : P}
    (h : next mtype cap op s p = none) :
    op p (s.proc p) = .halt ∨
    (∃ t k q, op p (s.proc p) = .msgrcv t false k ∧ s.queue = some q ∧ box mtype t q = []) ∨
    (∃ m k q, op p (s.proc p) = .msgsnd m k ∧ s.queue = some q ∧ ¬ room cap q) := by
  unfold next at h
  split at h
  · next m k q hop hq =>
    split at h
    · cases h
    · next hroom => exact .inr (.inr ⟨m, k, q, hop, hq, hroom⟩)
  · cases h
  · next t nowait k q hop hq =>
    split at h
    · cases h
    · next hr =>
      split at h
      · cases h
      · next hn =>
        rw [Bool.not_eq_true] at hn
        subst hn
        exact .inr (.inl ⟨t, k, q, hop, hq, recv_eq_none.mp hr⟩)
  · cases h
  · cases h
  · cases h
  · cases h
  · next hop => exact .inl hop

/-- A process at a call that does not block can step. -/
theorem next_of_free {cap : Option ℕ} {op : P → L → Op M L} {s : Host M L P} {p : P}
    (h : (op p (s.proc p)).Free) : next mtype cap op s p ≠ none := by
  intro hnone
  rcases next_eq_none hnone with hop | ⟨t, k, q, hop, -⟩ | ⟨m, k, q, hop, -⟩
  · rw [hop] at h
    exact h
  · rw [hop] at h
    cases h
  · rw [hop] at h
    exact h

/-- A process that waits in `msgrcv` finds its box empty. -/
theorem box_of_next_eq_none {cap : Option ℕ} {op : P → L → Op M L} {s : Host M L P} {p : P}
    {t : ℕ} {nowait : Bool} {k : Option M → L} {q : List M}
    (h : next mtype cap op s p = none) (hop : op p (s.proc p) = .msgrcv t nowait k)
    (hq : s.queue = some q) : box mtype t q = [] := by
  rcases next_eq_none h with hhalt | ⟨t', k', q', hop', hq', hbox⟩ | ⟨m, k', q', hop', -⟩
  · rw [hop] at hhalt
    cases hhalt
  · rw [hop] at hop'
    rw [hq] at hq'
    cases hop'
    cases hq'
    exact hbox
  · rw [hop] at hop'
    cases hop'

/-- A process that waits in `msgsnd` finds the queue full. -/
theorem full_of_next_eq_none {cap : Option ℕ} {op : P → L → Op M L} {s : Host M L P} {p : P}
    {m : M} {k : Bool → L} {q : List M} (h : next mtype cap op s p = none)
    (hop : op p (s.proc p) = .msgsnd m k) (hq : s.queue = some q) : ¬ room cap q := by
  rcases next_eq_none h with hhalt | ⟨t', k', q', hop', -⟩ | ⟨m', k', q', -, hq', hroom⟩
  · rw [hop] at hhalt
    cases hhalt
  · rw [hop] at hop'
    cases hop'
  · rw [hq] at hq'
    cases hq'
    exact hroom

section inversion
variable {cap : Option ℕ} {op : P → L → Op M L} {s s' : Host M L P} {p : P} {call : Call M}
  {q : List M}

/-- `msgsnd` on a queue that exists. -/
theorem Step.of_msgsnd {m : M} {k : Bool → L} (h : Step mtype cap op s p s' call)
    (hop : op p (s.proc p) = .msgsnd m k) (hq : s.queue = some q) :
    room cap q ∧ call = .sent m ∧
      s' = { s with queue := some (q ++ [m]) }.goto p (k true) := by
  cases h <;> simp_all

/-- A blocking `msgrcv` on a queue that exists. -/
theorem Step.of_msgrcv {t : ℕ} {k : Option M → L} (h : Step mtype cap op s p s' call)
    (hop : op p (s.proc p) = .msgrcv t false k) (hq : s.queue = some q) :
    ∃ m q', recv mtype t q = some (m, q') ∧ call = .received m ∧
      s' = { s with queue := some q' }.goto p (k (some m)) := by
  cases h <;> simp_all

/-- `msgrcv` with `IPC_NOWAIT` on a queue that exists. -/
theorem Step.of_poll {t : ℕ} {k : Option M → L} (h : Step mtype cap op s p s' call)
    (hop : op p (s.proc p) = .msgrcv t true k) (hq : s.queue = some q) :
    (∃ m q', recv mtype t q = some (m, q') ∧ call = .received m ∧
      s' = { s with queue := some q' }.goto p (k (some m))) ∨
    (recv mtype t q = none ∧ call = .failed ∧ s' = s.goto p (k none)) := by
  cases h <;> simp_all

theorem Step.of_write {c : UInt8} {k : L} (h : Step mtype cap op s p s' call)
    (hop : op p (s.proc p) = .write c k) :
    call = .wrote c ∧ s' = { s with out := s.out ++ [(p, c)] }.goto p k := by
  cases h <;> simp_all

theorem Step.of_compute {k : L} (h : Step mtype cap op s p s' call)
    (hop : op p (s.proc p) = .compute k) : call = .computed ∧ s' = s.goto p k := by
  cases h <;> simp_all

theorem Step.of_rmid {k : L} (h : Step mtype cap op s p s' call)
    (hop : op p (s.proc p) = .rmid k) :
    call = .removed ∧ s' = { s with queue := none }.goto p k := by
  cases h <;> simp_all

theorem Step.of_halt (h : Step mtype cap op s p s' call) : op p (s.proc p) ≠ .halt := by
  cases h <;> simp_all

end inversion

theorem Step.then {cap : Option ℕ} {op : P → L → Op M L} {s s' : Host M L P} {p : P}
    {call : Call M} (h : Step mtype cap op s p s' call) {Q : L → Prop}
    (hQ : (op p (s.proc p)).Then Q) : Q (s'.proc p) := by
  cases h with
  | sent hop | received hop | enomsg hop | not_sent hop | not_received hop | wrote hop
  | removed hop | computed hop =>
    rw [hop] at hQ
    rw [Host.goto_proc_self]
    first
      | exact hQ
      | exact hQ _

/-- A step of one process leaves the others where they are. -/
theorem Step.frame {cap : Option ℕ} {op : P → L → Op M L} {s s' : Host M L P} {p p' : P}
    {call : Call M} (h : Step mtype cap op s p s' call) (hp : p' ≠ p) :
    s'.proc p' = s.proc p' := by
  cases h <;> exact Host.goto_proc_ne _ _ hp

/-! ### Termination -/

/-- The process pays for its next call: with a weight for every local state and
    every message, the total goes down whatever the call returns. -/
def Op.Pays (w : L → ℕ) (v : M → ℕ) (l : L) : Op M L → Prop
  | .msgsnd m k => w (k true) + v m < w l ∧ w (k false) < w l
  | .msgrcv _ _ k => (∀ m, w (k (some m)) < w l + v m) ∧ w (k none) < w l
  | .write _ k | .rmid k | .compute k => w k < w l
  | .halt => True

/-- Weight of the processes `ps` and of the messages in the queue. -/
def weight (w : L → ℕ) (v : M → ℕ) (ps : Finset P) (s : Host M L P) : ℕ :=
  ∑ p ∈ ps, w (s.proc p) + ((s.queue.getD []).map v).sum

/-- If every process pays for its calls, every step lowers the weight. -/
theorem Step.weight_lt {cap : Option ℕ} {op : P → L → Op M L} {s s' : Host M L P} {p : P}
    {call : Call M} (w : L → ℕ) (v : M → ℕ) {ps : Finset P} (hp : p ∈ ps)
    (hpays : (op p (s.proc p)).Pays w v (s.proc p)) (h : Step mtype cap op s p s' call) :
    weight w v ps s' < weight w v ps s := by
  have hsum := Census.sum_update (fun _ => w) hp s.proc
  unfold weight
  cases h with
  -- the message that is sent carries its weight into the queue
  | @sent m k q hop hq hroom =>
    rw [hop] at hpays
    have := hsum (k true)
    have := hpays.1
    simp only [Host.goto, hq, Option.getD_some, List.map_append, List.map_cons, List.map_nil,
      List.sum_append, List.sum_cons, List.sum_nil]
    omega
  -- the weight of the message that is taken pays for the rest
  | @received t nowait k q m q' hop hq hrecv =>
    rw [hop] at hpays
    have := hsum (k (some m))
    have := hpays.1 m
    have hperm : (q.map v).sum = v m + (q'.map v).sum := by
      simpa using ((recv_eq_some hrecv).2.2.2.map v).sum_eq
    simp only [Host.goto, hq, Option.getD_some]
    omega
  | @enomsg t k q hop hq hrecv =>
    rw [hop] at hpays
    have := hsum (k none)
    have := hpays.2
    simp only [Host.goto]
    omega
  | @not_sent m k hop hq =>
    rw [hop] at hpays
    have := hsum (k false)
    have := hpays.2
    simp only [Host.goto]
    omega
  | @not_received t nowait k hop hq =>
    rw [hop] at hpays
    have := hsum (k none)
    have := hpays.2
    simp only [Host.goto]
    omega
  | @wrote c k hop | @computed k hop =>
    rw [hop] at hpays
    have := hsum k
    have : w k < w (s.proc p) := hpays
    simp only [Host.goto]
    omega
  | @removed k hop =>
    rw [hop] at hpays
    have := hsum k
    have : w k < w (s.proc p) := hpays
    simp only [Host.goto, Option.getD_none, List.map_nil, List.sum_nil]
    omega

end MsgQueue
