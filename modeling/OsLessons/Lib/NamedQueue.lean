import OsLessons.Lib.Transition

/-! # Processes over POSIX message queues

  Queues have names and hold at most `cap` messages, here all of one priority:
  each is a FIFO. `mq_unlink` takes the name away. Who has opened the queue
  before can still send and receive; `Call.used` is the queue a call works on.

  As in `MsgQueue`, a process is a local state and a program that says what it
  does next; `next` performs that call, `Step` lists what it can do.
-/

namespace NamedQueue

open Lts

/-- What a process does next. A failed `mq_open` passes `false`. -/
inductive Op (M κ L : Type*) where
  | mq_open (k : κ) (f : Bool → L)
  | mq_send (k : κ) (m : M) (l : L)
  | mq_receive (k : κ) (f : M → L)
  | mq_unlink (k : κ) (l : L)
  /-- local computation only -/
  | compute (l : L)
  | halt

/-- What a process did. -/
inductive Call (M κ : Type*) where
  | opened (k : κ)
  /-- there is no queue of that name -/
  | not_opened (k : κ)
  | sent (k : κ) (m : M)
  | received (k : κ) (m : M)
  | unlinked (k : κ)
  | computed
  deriving DecidableEq

/-- The queue that was opened, sent to or received from. -/
def Call.used {M κ : Type*} : Call M κ → Option κ
  | .opened k | .not_opened k | .sent k _ | .received k _ => some k
  | .unlinked _ | .computed => none

/-- The messages of a queue, oldest first, and whether it still has its name. -/
structure Queue (M : Type*) where
  msgs : List M
  linked : Bool

structure Host (M κ L P : Type*) where
  queue : κ → Queue M
  proc : P → L

variable {M κ L P : Type*} [DecidableEq κ] [DecidableEq P]

/-- Set the local state of process `p`. -/
def Host.goto (s : Host M κ L P) (p : P) (l : L) : Host M κ L P :=
  { s with proc := Function.update s.proc p l }

/-- Set the messages of queue `k`. -/
def Host.put (s : Host M κ L P) (k : κ) (msgs : List M) : Host M κ L P :=
  { s with queue := Function.update s.queue k { s.queue k with msgs } }

/-- Take the name of queue `k` away. -/
def Host.unlink (s : Host M κ L P) (k : κ) : Host M κ L P :=
  { s with queue := Function.update s.queue k { s.queue k with linked := false } }

section simp
variable (s : Host M κ L P)

omit [DecidableEq κ] in
@[simp] theorem Host.goto_queue (p : P) (l : L) : (s.goto p l).queue = s.queue := rfl
omit [DecidableEq κ] in
@[simp] theorem Host.goto_proc_self (p : P) (l : L) : (s.goto p l).proc p = l :=
  Function.update_self ..
omit [DecidableEq κ] in
theorem Host.goto_proc_ne {p p' : P} (l : L) (h : p' ≠ p) : (s.goto p l).proc p' = s.proc p' :=
  Function.update_of_ne h ..

omit [DecidableEq P] in
@[simp] theorem Host.put_proc (k : κ) (msgs : List M) : (s.put k msgs).proc = s.proc := rfl
omit [DecidableEq P] in
@[simp] theorem Host.unlink_proc (k : κ) : (s.unlink k).proc = s.proc := rfl

omit [DecidableEq P] in
@[simp] theorem Host.put_msgs_self (k : κ) (msgs : List M) :
    ((s.put k msgs).queue k).msgs = msgs := by
  simp [put]

omit [DecidableEq P] in
theorem Host.put_msgs_ne {k k' : κ} (msgs : List M) (h : k' ≠ k) :
    ((s.put k msgs).queue k').msgs = (s.queue k').msgs := by
  simp [put, h]

omit [DecidableEq P] in
@[simp] theorem Host.put_linked (k k' : κ) (msgs : List M) :
    ((s.put k msgs).queue k').linked = (s.queue k').linked := by
  rcases eq_or_ne k' k with rfl | h
  · simp [put]
  · simp [put, h]

omit [DecidableEq P] in
@[simp] theorem Host.unlink_msgs (k k' : κ) :
    ((s.unlink k).queue k').msgs = (s.queue k').msgs := by
  rcases eq_or_ne k' k with rfl | h
  · simp [unlink]
  · simp [unlink, h]

end simp

/-- Perform the next call of process `p`; `none` if it blocks or has ended. -/
def next (cap : ℕ) (op : P → L → Op M κ L) (s : Host M κ L P) (p : P) :
    Option (Host M κ L P × Call M κ) :=
  match op p (s.proc p) with
  | .mq_open k f =>
      if (s.queue k).linked then some (s.goto p (f true), .opened k)
      else some (s.goto p (f false), .not_opened k)
  | .mq_send k m l =>
      if (s.queue k).msgs.length < cap then
        some ((s.put k ((s.queue k).msgs ++ [m])).goto p l, .sent k m)
      else none
  | .mq_receive k f =>
      match (s.queue k).msgs with
      | m :: ms => some ((s.put k ms).goto p (f m), .received k m)
      | [] => none
  | .mq_unlink k l => some ((s.unlink k).goto p l, .unlinked k)
  | .compute l => some (s.goto p l, .computed)
  | .halt => none

/-- What one step of process `p` can be. -/
inductive Step (cap : ℕ) (op : P → L → Op M κ L) (s : Host M κ L P) (p : P) :
    Host M κ L P → Call M κ → Prop where
  | opened {k f} : op p (s.proc p) = .mq_open k f → (s.queue k).linked = true →
      Step cap op s p (s.goto p (f true)) (.opened k)
  | not_opened {k f} : op p (s.proc p) = .mq_open k f → (s.queue k).linked = false →
      Step cap op s p (s.goto p (f false)) (.not_opened k)
  | sent {k m l} : op p (s.proc p) = .mq_send k m l → (s.queue k).msgs.length < cap →
      Step cap op s p ((s.put k ((s.queue k).msgs ++ [m])).goto p l) (.sent k m)
  | received {k f m ms} : op p (s.proc p) = .mq_receive k f → (s.queue k).msgs = m :: ms →
      Step cap op s p ((s.put k ms).goto p (f m)) (.received k m)
  | unlinked {k l} : op p (s.proc p) = .mq_unlink k l →
      Step cap op s p ((s.unlink k).goto p l) (.unlinked k)
  | computed {l} : op p (s.proc p) = .compute l → Step cap op s p (s.goto p l) .computed

section rules
variable {cap : ℕ} {op : P → L → Op M κ L} {s s' : Host M κ L P} {p : P} {call : Call M κ}

theorem step_of_next (h : next cap op s p = some (s', call)) : Step cap op s p s' call := by
  unfold next at h
  split at h
  · next k f hop =>
    split at h
    · next hlinked =>
      cases h
      exact .opened hop hlinked
    · next hlinked =>
      cases h
      exact .not_opened hop (Bool.not_eq_true _ ▸ hlinked)
  · next k m l hop =>
    split at h
    · next hroom =>
      cases h
      exact .sent hop hroom
    · cases h
  · next k f hop =>
    split at h
    · next m ms hmsgs =>
      cases h
      exact .received hop hmsgs
    · cases h
  · next k l hop =>
    cases h
    exact .unlinked hop
  · next l hop =>
    cases h
    exact .computed hop
  · cases h

/-- A process that cannot step has ended, waits for a message, or waits for room. -/
theorem next_eq_none (h : next cap op s p = none) :
    op p (s.proc p) = .halt ∨
    (∃ k f, op p (s.proc p) = .mq_receive k f ∧ (s.queue k).msgs = []) ∨
    (∃ k m l, op p (s.proc p) = .mq_send k m l ∧ cap ≤ (s.queue k).msgs.length) := by
  unfold next at h
  split at h
  · split at h <;> cases h
  · next k m l hop =>
    split at h
    · cases h
    · next hroom => exact .inr (.inr ⟨k, m, l, hop, not_lt.mp hroom⟩)
  · next k f hop =>
    split at h
    · cases h
    · next hmsgs => exact .inr (.inl ⟨k, f, hop, hmsgs⟩)
  · cases h
  · cases h
  · next hop => exact .inl hop

/-- A process that waits in `mq_receive` finds its queue empty. -/
theorem msgs_of_next_eq_none {k : κ} {f : M → L} (h : next cap op s p = none)
    (hop : op p (s.proc p) = .mq_receive k f) : (s.queue k).msgs = [] := by
  rcases next_eq_none h with hhalt | ⟨k', f', hop', hmsgs⟩ | ⟨k', m, l, hop', -⟩
  · rw [hop] at hhalt
    cases hhalt
  · rw [hop] at hop'
    cases hop'
    exact hmsgs
  · rw [hop] at hop'
    cases hop'

/-- A process that waits in `mq_send` finds its queue full. -/
theorem full_of_next_eq_none {k : κ} {m : M} {l : L} (h : next cap op s p = none)
    (hop : op p (s.proc p) = .mq_send k m l) : cap ≤ (s.queue k).msgs.length := by
  rcases next_eq_none h with hhalt | ⟨k', f', hop', -⟩ | ⟨k', m', l', hop', hfull⟩
  · rw [hop] at hhalt
    cases hhalt
  · rw [hop] at hop'
    cases hop'
  · rw [hop] at hop'
    cases hop'
    exact hfull

/-- `mq_open` does not wait. -/
theorem next_open {k : κ} {f : Bool → L} (hop : op p (s.proc p) = .mq_open k f) :
    next cap op s p ≠ none := by
  simp only [next, hop]
  split <;> simp

/-- A step of one process leaves the others where they are. -/
theorem Step.frame (h : Step cap op s p s' call) {p' : P} (hp : p' ≠ p) :
    s'.proc p' = s.proc p' := by
  cases h <;> exact Host.goto_proc_ne _ _ hp

theorem Step.of_open {k : κ} {f : Bool → L} (h : Step cap op s p s' call)
    (hop : op p (s.proc p) = .mq_open k f) (hlinked : (s.queue k).linked = true) :
    call = .opened k ∧ s' = s.goto p (f true) := by
  cases h <;> simp_all

theorem Step.of_send {k : κ} {m : M} {l : L} (h : Step cap op s p s' call)
    (hop : op p (s.proc p) = .mq_send k m l) :
    call = .sent k m ∧ s' = (s.put k ((s.queue k).msgs ++ [m])).goto p l := by
  cases h <;> simp_all

theorem Step.of_receive {k : κ} {f : M → L} (h : Step cap op s p s' call)
    (hop : op p (s.proc p) = .mq_receive k f) :
    ∃ m ms, (s.queue k).msgs = m :: ms ∧ call = .received k m ∧
      s' = (s.put k ms).goto p (f m) := by
  cases h <;> simp_all

theorem Step.of_unlink {k : κ} {l : L} (h : Step cap op s p s' call)
    (hop : op p (s.proc p) = .mq_unlink k l) :
    call = .unlinked k ∧ s' = (s.unlink k).goto p l := by
  cases h <;> simp_all

theorem Step.of_compute {l : L} (h : Step cap op s p s' call)
    (hop : op p (s.proc p) = .compute l) : call = .computed ∧ s' = s.goto p l := by
  cases h <;> simp_all

theorem Step.of_halt (h : Step cap op s p s' call) : op p (s.proc p) ≠ .halt := by
  cases h <;> simp_all

/-- A name that has been taken away does not come back. -/
theorem Step.unlinked_stays (h : Step cap op s p s' call) {k : κ}
    (hk : (s.queue k).linked = false) : (s'.queue k).linked = false := by
  cases h with
  | opened | not_opened | computed => exact hk
  | sent | received =>
    rw [Host.goto_queue, Host.put_linked]
    exact hk
  | @unlinked k' =>
    rw [Host.goto_queue]
    rcases eq_or_ne k k' with rfl | hne
    · simp [Host.unlink]
    · simpa [Host.unlink, hne] using hk

/-! ### Termination -/

/-- Whatever the call returns, the process goes on in a local state with `Q`. -/
def Op.Then {M κ L : Type*} (Q : L → Prop) : Op M κ L → Prop
  | .mq_open _ f => ∀ ok, Q (f ok)
  | .mq_receive _ f => ∀ m, Q (f m)
  | .mq_send _ _ l | .mq_unlink _ l | .compute l => Q l
  | .halt => True

theorem Step.then (h : Step cap op s p s' call) {Q : L → Prop} (hQ : (op p (s.proc p)).Then Q) :
    Q (s'.proc p) := by
  cases h with
  | opened hop | not_opened hop | sent hop | received hop | unlinked hop | computed hop =>
    rw [hop] at hQ
    rw [Host.goto_proc_self]
    first
      | exact hQ
      | exact hQ _

/-- If every call takes its process to a smaller weight, every step lowers the
    sum. -/
theorem Step.sum_lt [Fintype P] {w : P → L → ℕ} (h : Step cap op s p s' call)
    (hop : (op p (s.proc p)).Then fun l => w p l < w p (s.proc p)) :
    ∑ p, w p (s'.proc p) < ∑ p, w p (s.proc p) := by
  apply Finset.sum_lt_sum
  · intro u _
    rcases eq_or_ne u p with rfl | hne
    · exact (h.then hop).le
    · rw [h.frame hne]
  · exact ⟨p, Finset.mem_univ p, h.then hop⟩

end rules

end NamedQueue
