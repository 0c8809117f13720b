import OsLessons.SignalCat.Model

/-! # signal_cat: the transfer is exact

  The two loops stay in step through the acknowledgements. `Item` is what the
  parent sends next, a bit or the last signal; for each item there is one
  place in either loop where it is sent, awaited and acknowledged. `Stage`
  lists how far an item can be, with the own signals that are pending there:
  never more than one.

  Signals of strangers come and go without changing the stage.
-/

namespace SignalCat

open Lts MsgQueue

/-! ### The bits of a byte -/

/-- The bits of `c` below bit `b`. -/
def low (b : ℕ) (c : UInt8) : UInt8 := .ofBitVec ((c.toBitVec.setWidth b).setWidth 8)

theorem low_zero (c : UInt8) : low 0 c = 0 := by
  apply UInt8.toBitVec_inj.mp
  apply BitVec.eq_of_getLsbD_eq
  intro j hj
  simp [low]

theorem low_bits (c : UInt8) : low BITS c = c := by
  apply UInt8.toBitVec_inj.mp
  simp [low, BITS]

/-- The bit that the parent shifts out is the one the child shifts in. -/
theorem addBit_bitOf (c : UInt8) {b : ℕ} (hb : b < BITS) :
    addBit (low b c) b (bitOf c b) = low (b + 1) c := by
  apply UInt8.toBitVec_inj.mp
  apply BitVec.eq_of_getLsbD_eq
  intro j hj
  have hb' : b < 8 := hb
  have hone : ∀ k, (1#32).getLsbD k = decide (k = 0) := by
    intro k
    rw [BitVec.getLsbD_one]
    simp
  simp only [addBit, low, bitOf, UInt8.toBitVec_or, BitVec.getLsbD_or, BitVec.getLsbD_setWidth,
    BitVec.getLsbD_shiftLeft, BitVec.getLsbD_and, BitVec.getLsbD_ushiftRight, hone]
  rcases lt_trichotomy j b with h | h | h
  · simp [h, hj, show j < b + 1 by omega]
  · subst h
    simp [hj, show j < 32 by omega]
  · simp [show ¬ j < b by omega, show ¬ j < b + 1 by omega, show j - b ≠ 0 by omega]

/-! ### The buffer of the child -/

/-- The buffer once the first `k` bytes are in. -/
def received (msg : List UInt8) (k : ℕ) : List UInt8 :=
  msg.take k ++ List.replicate (msg.length + 1 - k) 0

theorem received_zero (msg : List UInt8) : received msg 0 = List.replicate (msg.length + 1) 0 := by
  simp [received]

theorem received_all (msg : List UInt8) : received msg msg.length = msg ++ [0] := by
  simp [received]

/-- `buf[i] = c` with the byte that was sent. -/
theorem received_set (msg : List UInt8) {i : ℕ} (hi : i < msg.length) :
    (received msg i).set i (msg.getD i 0) = received msg (i + 1) := by
  have hlen : (msg.take i).length = i := by simp [Nat.le_of_lt hi]
  have hrep : List.replicate (msg.length + 1 - i) (0 : UInt8) =
      0 :: List.replicate (msg.length + 1 - (i + 1)) 0 := by
    rw [← List.replicate_succ]
    congr 1
    omega
  unfold received
  rw [List.set_append_right _ _ (by omega), hlen, Nat.sub_self, hrep, List.set_cons_zero,
    List.take_succ_eq_append_getElem hi, List.append_assoc, List.getD_eq_getElem _ _ hi]
  rfl

/-- `buf[len] = 0` and `%s`. -/
theorem print_received {msg : List UInt8} (hnul : 0 ∉ msg) :
    (received msg msg.length).set msg.length 0 = msg ++ [0] ∧
      (msg ++ [0]).takeWhile (· ≠ 0) = msg := by
  constructor
  · rw [received_all, List.set_append_right _ _ le_rfl, Nat.sub_self, List.set_cons_zero]
  · rw [List.takeWhile_append_of_pos]
    · simp
    · intro c hc
      have hne : c ≠ 0 := fun h => hnul (h ▸ hc)
      simpa using hne

/-! ### Items -/

/-- What is transferred next: bit `b` of byte `i`, or the end of the message. -/
inductive Item where
  | bit (i b : ℕ)
  | fin

/-- The item at the head of the loop over the bytes. -/
def byteItem (len i : ℕ) : Item := if i < len then .bit i 0 else .fin

/-- The item at the head of the loop over the bits of byte `i`. -/
def bitItem (len i b : ℕ) : Item := if b < BITS then .bit i b else byteItem len (i + 1)

namespace Item

/-- The item belongs to the message. -/
def Valid (len : ℕ) : Item → Prop
  | .bit i b => i < len ∧ b < BITS
  | .fin => True

/-- The parent is about to send the item. -/
def sending : Item → ParentPc
  | .bit i b => .sendBit i b
  | .fin => .sendFin

/-- The parent waits for the acknowledgement of the item. -/
def awaitingAck : Item → ParentPc
  | .bit i b => .awaitAck i b
  | .fin => .awaitFinAck

/-- The child waits for the item. -/
def awaited (msg : List UInt8) : Item → ChildPc
  | .bit i b => .awaitBit i b (low b (msg.getD i 0))
  | .fin => .awaitFin

/-- The child has the item and is about to acknowledge it. -/
def acking (msg : List UInt8) : Item → ChildPc
  | .bit i b => .sendAck i b (low (b + 1) (msg.getD i 0))
  | .fin => .sendFinAck

/-- The buffer of the child at the item. -/
def buf (msg : List UInt8) : Item → List UInt8
  | .bit i _ => received msg i
  | .fin => received msg msg.length

/-- The signal that carries the item. -/
def signal (msg : List UInt8) : Item → SigInfo
  | .bit i b => ⟨.sig_bit, .parent, bitOf (msg.getD i 0) b⟩
  | .fin => ⟨.sig_fin, .parent, 2⟩

end Item

theorem byteItem_valid (len i : ℕ) : (byteItem len i).Valid len := by
  unfold byteItem
  split
  · next h => exact ⟨h, by decide⟩
  · trivial

theorem bitItem_valid {len i : ℕ} (hi : i < len) (b : ℕ) : (bitItem len i b).Valid len := by
  unfold bitItem
  split
  · next h => exact ⟨hi, h⟩
  · exact byteItem_valid _ _

theorem parentByte_eq (len i : ℕ) : parentByte len i = (byteItem len i).sending := by
  unfold parentByte byteItem
  split <;> rfl

theorem parentBit_eq (len i b : ℕ) : parentBit len i b = (bitItem len i b).sending := by
  unfold parentBit bitItem
  split
  · rfl
  · exact parentByte_eq _ _

theorem childByte_eq (msg : List UInt8) {i : ℕ} (hi : i ≤ msg.length) :
    childByte msg.length i = (byteItem msg.length i).awaited msg ∧
      received msg i = (byteItem msg.length i).buf msg := by
  unfold childByte byteItem
  split
  · simp [Item.awaited, Item.buf, low_zero]
  · next h =>
    obtain rfl : i = msg.length := by omega
    exact ⟨rfl, rfl⟩

/-- After bit `b` the child waits for the same item as the parent sends. -/
theorem childBit_eq {msg : List UInt8} {i b : ℕ} (hi : i < msg.length) (hb : b < BITS) :
    childBit msg.length i (b + 1) (low (b + 1) (msg.getD i 0)) (received msg i) =
      ((bitItem msg.length i (b + 1)).awaited msg, (bitItem msg.length i (b + 1)).buf msg) := by
  unfold childBit bitItem
  split
  · rfl
  -- the byte is complete
  · next h =>
    have hbits : b + 1 = BITS := by omega
    obtain ⟨hpc, hbuf⟩ := childByte_eq msg (i := i + 1) hi
    rw [hbits, low_bits, received_set msg hi, hpc, hbuf]

/-! ### Own signals among strangers -/

/-- The pending signals that the two processes have sent. -/
def own (q : List SigInfo) : List SigInfo := q.filter SigInfo.own

theorem own_snoc (q : List SigInfo) (info : SigInfo) :
    own (q ++ [info]) = own q ++ if info.own then [info] else [] := by
  cases h : info.own <;> simp [own, h]

theorem own_snoc_stranger (q : List SigInfo) (signo : Signo) (pid : ℕ) (v : BitVec 32) :
    own (q ++ [⟨signo, .stranger pid, v⟩]) = own q := by
  rw [own_snoc]
  simp [SigInfo.own]

/-- Where at most one own signal is pending, `sigwaitinfo` takes it or the
    signal of a stranger. -/
theorem own_recv {q q' : List SigInfo} {t : ℕ} {info : SigInfo}
    (h : recv SigInfo.num t q = some (info, q')) (hle : (own q).length ≤ 1) :
    (own q = [info] ∧ own q' = []) ∨ (info.own = false ∧ own q' = own q) := by
  have hperm : (own q).Perm (own (info :: q')) := (recv_eq_some h).2.2.2.filter _
  cases hinfo : info.own with
  | true =>
    left
    have hcons : own (info :: q') = info :: own q' := by simp [own, hinfo]
    rw [hcons] at hperm
    have hlen := hperm.length_eq
    have hnil : own q' = [] := by
      apply List.length_eq_zero_iff.mp
      simp only [List.length_cons] at hlen
      omega
    rw [hnil] at hperm
    exact ⟨List.perm_singleton.mp hperm, hnil⟩
  | false =>
    right
    have hcons : own (info :: q') = own q' := by simp [own, hinfo]
    rw [hcons] at hperm
    refine ⟨rfl, ?_⟩
    -- lists of at most one element that are permutations are equal
    match hq : own q, hq' : own q' with
    | [], l =>
      rw [hq, hq'] at hperm
      exact List.nil_perm.mp hperm
    | [x], l =>
      rw [hq, hq'] at hperm
      exact List.perm_singleton.mp hperm.symm
    | x :: y :: r, _ =>
      rw [hq] at hle
      simp at hle

/-! ### Stages -/

/-- The acknowledgement. -/
def ack : SigInfo := ⟨.sig_ack, .child, 0⟩

/-- The child has acknowledged the last signal: it is at the label `done`, but
    not by the `goto`, or it has ended. -/
def ChildPc.Over : ChildPc → Prop
  | .done early => early = false
  | .exited => True
  | _ => False

/-- The child is past its loops. -/
def ChildPc.Ended : ChildPc → Prop
  | .done _ | .exited => True
  | _ => False

/-- How far the current item is: the places of both processes, the buffer, and
    the own signals that are pending for the parent and for the child. -/
inductive Stage (msg : List UInt8) :
    ParentPc → ChildPc → List UInt8 → List SigInfo → List SigInfo → Prop where
  | ready {x : Item} : x.Valid msg.length →
      Stage msg x.sending (x.awaited msg) (x.buf msg) [] []
  | sent {x : Item} : x.Valid msg.length →
      Stage msg x.awaitingAck (x.awaited msg) (x.buf msg) [] [x.signal msg]
  | taken {x : Item} : x.Valid msg.length →
      Stage msg x.awaitingAck (x.acking msg) (x.buf msg) [] []
  /-- the child is at the next item already -/
  | acked {i b : ℕ} : i < msg.length → b < BITS →
      Stage msg (.awaitAck i b) ((bitItem msg.length i (b + 1)).awaited msg)
        ((bitItem msg.length i (b + 1)).buf msg) [ack] []
  | finAcked {c : ChildPc} : c.Over →
      Stage msg .awaitFinAck c (received msg msg.length) [ack] []
  | reaping {c : ChildPc} : c.Over → Stage msg .waitpid c (received msg msg.length) [] []
  | finished : Stage msg .exited .exited (received msg msg.length) [] []

namespace Stage

variable {msg buf buf' : List UInt8} {p p' : ParentPc} {c c' : ChildPc}
  {up down : List SigInfo} {info : SigInfo}

/-- At most one own signal is pending. -/
theorem pending_le (h : Stage msg p c buf up down) : up.length + down.length ≤ 1 := by
  cases h <;> simp

theorem parent_sends (h : Stage msg p c buf up down)
    (hs : SignalCat.parent_sends msg p = some (info, p')) :
    info.own = true ∧ Stage msg p' c buf up (down ++ [info]) := by
  cases h with
  | @ready x hx =>
    cases x <;>
    · cases hs
      exact ⟨rfl, .sent hx⟩
  | @sent x _ | @taken x _ => cases x <;> cases hs
  | acked | finAcked | reaping | finished => cases hs

/-- An acknowledgement takes the parent to the next item; it ignores strangers. -/
theorem parent_takes (h : Stage msg p c buf up down)
    (ht : SignalCat.parent_takes msg.length info p = some p') :
    (up = [info] → Stage msg p' c buf [] down) ∧ (info.own = false → p' = p) := by
  constructor
  · rintro rfl
    cases h with
    | acked hi hb =>
      simp only [SignalCat.parent_takes, ack, and_self, ↓reduceIte, Option.some.injEq] at ht
      rw [← ht, parentBit_eq]
      exact .ready (bitItem_valid hi _)
    | finAcked hc =>
      simp only [SignalCat.parent_takes, ack, and_self, ↓reduceIte, Option.some.injEq] at ht
      rw [← ht]
      exact .reaping hc
  · intro hown
    have hpid : info.si_pid ≠ .child := by
      intro heq
      simp [SigInfo.own, heq] at hown
    cases p with
    | awaitAck i b => simpa [SignalCat.parent_takes, hpid] using ht.symm
    | awaitFinAck => simpa [SignalCat.parent_takes, hpid] using ht.symm
    | sendBit | sendFin | waitpid | exited => cases ht

theorem child_sends (h : Stage msg p c buf up down)
    (hs : SignalCat.child_sends msg.length buf c = some (info, c', buf')) :
    info.own = true ∧ Stage msg p c' buf' (up ++ [info]) down := by
  cases h with
  | @ready x hx | @sent x hx => cases x <;> cases hs
  | @taken x hx =>
    cases x with
    | bit i b =>
      obtain ⟨hi, hb⟩ := hx
      simp only [Item.acking, SignalCat.child_sends, Item.buf, childBit_eq hi hb,
        Option.some.injEq, Prod.mk.injEq] at hs
      obtain ⟨rfl, rfl, rfl⟩ := hs
      exact ⟨rfl, .acked hi hb⟩
    | fin =>
      cases hs
      exact ⟨rfl, .finAcked rfl⟩
  | @acked i b hi hb => cases hy : bitItem msg.length i (b + 1) <;> rw [hy] at hs <;> cases hs
  | finAcked hc | reaping hc =>
    cases c with
    | done | exited => cases hs
    | awaitBit | sendAck | awaitFin | sendFinAck => cases hc
  | finished => cases hs

/-- The item makes the child acknowledge it; it ignores strangers. -/
theorem child_takes (h : Stage msg p c buf up down)
    (ht : SignalCat.child_takes info buf c = some (c', buf')) :
    (down = [info] → Stage msg p c' buf' up []) ∧
      (info.own = false → c' = c ∧ buf' = buf) := by
  constructor
  · rintro rfl
    cases h with
    | @sent x hx =>
      cases x with
      | bit i b =>
        simp only [SignalCat.child_takes, Item.awaited, Item.signal, addBit_bitOf _ hx.2, ne_eq,
          not_true_eq_false, reduceCtorEq, false_and, true_or, ↓reduceIte, Option.some.injEq,
          Prod.mk.injEq] at ht
        obtain ⟨rfl, rfl⟩ := ht
        exact .taken (x := .bit i b) hx
      | fin =>
        simp only [SignalCat.child_takes, Item.awaited, Item.signal, and_self, ↓reduceIte,
          Option.some.injEq, Prod.mk.injEq] at ht
        obtain ⟨rfl, rfl⟩ := ht
        exact .taken (x := .fin) hx
  · intro hown
    have hpid : info.si_pid ≠ .parent := by
      intro heq
      simp [SigInfo.own, heq] at hown
    cases c with
    | awaitBit i b d =>
      simp only [SignalCat.child_takes, ne_eq, hpid, not_false_eq_true, ↓reduceIte,
        Option.some.injEq, Prod.mk.injEq] at ht
      exact ⟨ht.1.symm, ht.2.symm⟩
    | awaitFin =>
      simp only [SignalCat.child_takes, hpid, false_and, ↓reduceIte, Option.some.injEq,
        Prod.mk.injEq] at ht
      exact ⟨ht.1.symm, ht.2.symm⟩
    | sendAck | sendFinAck | done | exited => cases ht

/-- Where the child is at the label `done` or has ended, it has the whole
    message and did not get there by the `goto`. -/
theorem ended (h : Stage msg p c buf up down) (hc : c.Ended) :
    c.Over ∧ buf = received msg msg.length ∧ Stage msg p .exited buf up down := by
  cases h with
  | @ready x _ | @sent x _ | @taken x _ => cases x <;> cases hc
  | @acked i b _ _ => cases hy : bitItem msg.length i (b + 1) <;> rw [hy] at hc <;> cases hc
  | finAcked hover => exact ⟨hover, rfl, .finAcked trivial⟩
  | reaping hover => exact ⟨hover, rfl, .reaping trivial⟩
  | finished => exact ⟨trivial, rfl, .finished⟩

theorem reaps (h : Stage msg p c buf up down) (hp : p = .waitpid) (hc : c = .exited) :
    Stage msg .exited c buf up down := by
  cases h with
  | @ready x _ | @sent x _ | @taken x _ => cases x <;> cases hp
  | acked | finAcked | finished => cases hp
  | reaping =>
    subst hc
    exact .finished

end Stage

/-- Only what it prints ends the child. -/
theorem child_sends_ne_exited {len : ℕ} {buf : List UInt8} {c : ChildPc}
    {r : SigInfo × ChildPc × List UInt8} (h : child_sends len buf c = some r) :
    c ≠ .exited ∧ r.2.1 ≠ .exited := by
  cases c with
  | sendAck i b d =>
    cases h
    refine ⟨by simp, ?_⟩
    show (childBit len i (b + 1) d buf).1 ≠ .exited
    unfold childBit childByte
    split_ifs <;> simp
  | sendFinAck =>
    cases h
    simp
  | awaitBit | awaitFin | done | exited => cases h

theorem child_takes_ne_exited {info : SigInfo} {buf : List UInt8} {c : ChildPc}
    {r : ChildPc × List UInt8} (h : child_takes info buf c = some r) :
    c ≠ .exited ∧ r.1 ≠ .exited := by
  cases c with
  | awaitBit i b d =>
    cases h
    refine ⟨by simp, ?_⟩
    split_ifs <;> simp
  | awaitFin =>
    cases h
    refine ⟨by simp, ?_⟩
    split_ifs <;> simp
  | sendAck | sendFinAck | done | exited => cases h

/-! ### The invariant -/

/-- The stage, and what has been printed. -/
structure Inv (msg : List UInt8) (s : State) : Prop where
  stage : Stage msg s.parent s.child s.buf (own s.toParent) (own s.toChild)
  printed : s.printed = if s.child = .exited then some msg else none

theorem inv_init (msg : List UInt8) : Inv msg (initState msg) where
  stage := by
    obtain ⟨hchild, hbuf⟩ := childByte_eq msg (Nat.zero_le msg.length)
    unfold initState
    rw [parentByte_eq, hchild, ← received_zero, hbuf]
    exact .ready (byteItem_valid _ _)
  printed := by
    unfold initState childByte
    split <;> rfl

theorem inv_step {msg : List UInt8} (hnul : 0 ∉ msg) {s s' : State} {e : Event}
    (hs : Inv msg s) (h : next msg s e = some s') : Inv msg s' := by
  obtain ⟨hstage, hprinted⟩ := hs
  have hle := hstage.pending_le
  cases e with
  | parentSends =>
    obtain ⟨⟨info, p'⟩, hsend, rfl⟩ := Option.map_eq_some_iff.mp h
    obtain ⟨hown, hnext⟩ := hstage.parent_sends hsend
    refine ⟨?_, hprinted⟩
    simpa [own_snoc, hown] using hnext
  | parentTakes signo =>
    obtain ⟨⟨info, q'⟩, hrecv, hmap⟩ := Option.bind_eq_some_iff.mp h
    obtain ⟨p', htake, rfl⟩ := Option.map_eq_some_iff.mp hmap
    obtain ⟨hack, hignore⟩ := hstage.parent_takes htake
    refine ⟨?_, hprinted⟩
    rcases own_recv hrecv (by omega) with ⟨hup, hrest⟩ | ⟨hstranger, hrest⟩
    · simpa only [hrest] using hack hup
    · simpa only [hrest, hignore hstranger] using hstage
  | parentReaps =>
    simp only [next] at h
    split at h
    · next hwait =>
      cases h
      obtain ⟨hparent, hchild⟩ := hwait
      exact ⟨hstage.reaps hparent hchild, hprinted⟩
    · cases h
  | childSends =>
    obtain ⟨⟨info, c', buf'⟩, hsend, rfl⟩ := Option.map_eq_some_iff.mp h
    obtain ⟨hown, hnext⟩ := hstage.child_sends hsend
    constructor
    · simpa [own_snoc, hown] using hnext
    · obtain ⟨hbefore, hafter⟩ := child_sends_ne_exited hsend
      rw [if_neg hbefore] at hprinted
      exact hprinted.trans (if_neg hafter).symm
  | childTakes signo =>
    obtain ⟨⟨info, q'⟩, hrecv, hmap⟩ := Option.bind_eq_some_iff.mp h
    obtain ⟨⟨c', buf'⟩, htake, rfl⟩ := Option.map_eq_some_iff.mp hmap
    obtain ⟨htaken, hignore⟩ := hstage.child_takes htake
    constructor
    · rcases own_recv hrecv (by omega) with ⟨hdown, hrest⟩ | ⟨hstranger, hrest⟩
      · simpa only [hrest] using htaken hdown
      · obtain ⟨rfl, rfl⟩ := hignore hstranger
        simpa only [hrest] using hstage
    · obtain ⟨hbefore, hafter⟩ := child_takes_ne_exited htake
      rw [if_neg hbefore] at hprinted
      exact hprinted.trans (if_neg hafter).symm
  | childPrints =>
    simp only [next] at h
    split at h
    · next early hchild =>
      cases h
      obtain ⟨-, hbuf, hexited⟩ := hstage.ended (by rw [hchild]; trivial)
      obtain ⟨hset, hprint⟩ := print_received hnul
      constructor
      · rw [hbuf] at hexited
        simp only [hbuf, hset]
        rw [← received_all]
        exact hexited
      · simp only [hbuf, hset, hprint, ↓reduceIte]
    · cases h
  | strayToParent signo pid v =>
    cases h
    refine ⟨?_, hprinted⟩
    rw [own_snoc_stranger]
    exact hstage
  | strayToChild signo pid v =>
    cases h
    refine ⟨?_, hprinted⟩
    rw [own_snoc_stranger]
    exact hstage

theorem inv_reachable {msg : List UInt8} (hnul : 0 ∉ msg) {s : State}
    (h : (signal_cat msg).Reachable s) : Inv msg s := by
  apply System.invariant _ _ h
  · rintro _ rfl
    exact inv_init msg
  · intro s e s' hs hstep
    exact inv_step hnul hs hstep

/-! ### The transfer -/

/-- The parent cannot get ahead: it waits and no signal of the child is
    pending, or it has ended. -/
def ParentIdle (s : State) : Prop :=
  match s.parent with
  | .sendBit .. | .sendFin => False
  | .awaitAck .. | .awaitFinAck => ∀ info ∈ s.toParent, info.si_pid ≠ .child
  | .waitpid => s.child ≠ .exited
  | .exited => True

/-- The child cannot get ahead: it waits and no signal of the parent is
    pending, or it has ended. -/
def ChildIdle (s : State) : Prop :=
  match s.child with
  | .awaitBit .. | .awaitFin => ∀ info ∈ s.toChild, info.si_pid ≠ .parent
  | .sendAck .. | .sendFinAck | .done _ => False
  | .exited => True

/-- Where neither gets ahead, both have ended. -/
theorem Inv.finished {msg : List UInt8} {s : State} (hs : Inv msg s) (hp : ParentIdle s)
    (hc : ChildIdle s) : s.parent = .exited ∧ s.child = .exited := by
  have hstage := hs.stage
  unfold ParentIdle at hp
  unfold ChildIdle at hc
  have hack : ack ∈ own s.toParent → ¬ ∀ info ∈ s.toParent, info.si_pid ≠ .child := by
    intro hmem hall
    exact hall ack (List.mem_of_mem_filter hmem) rfl
  have hsig : ∀ x, Item.signal msg x ∈ own s.toChild →
      ¬ ∀ info ∈ s.toChild, info.si_pid ≠ .parent := by
    intro x hmem hall
    apply hall _ (List.mem_of_mem_filter hmem)
    cases x <;> rfl
  generalize s.parent = p at *
  generalize s.child = c at *
  generalize s.buf = buf at *
  generalize own s.toParent = up at *
  generalize own s.toChild = down at *
  cases hstage with
  | @ready x _ => cases x <;> exact hp.elim
  | @sent x _ => cases x <;> exact absurd hc (hsig _ (List.mem_singleton_self _))
  | @taken x _ => cases x <;> exact hc.elim
  | acked | finAcked => exact absurd hp (hack (List.mem_singleton_self _))
  | @reaping c hover =>
    cases c with
    | exited => exact absurd rfl hp
    | done => exact hc.elim
    | awaitBit | sendAck | awaitFin | sendFinAck => exact hover.elim
  | finished => exact ⟨rfl, rfl⟩

/-- **The transfer**: what the child prints is the message, at most one own
    signal is pending, the child never leaves its loops by the `goto`, and as
    long as not both have ended one of them gets ahead without a stranger. -/
theorem transfer (msg : List UInt8) (hnul : 0 ∉ msg) (s : State)
    (h : (signal_cat msg).Reachable s) :
    (∀ text, s.printed = some text → text = msg ∧ s.buf = msg ++ [0]) ∧
    (own s.toParent).length + (own s.toChild).length ≤ 1 ∧
    s.child ≠ .done true ∧
    (¬ (s.parent = .exited ∧ s.child = .exited) → ¬ (ParentIdle s ∧ ChildIdle s)) := by
  have hinv := inv_reachable hnul h
  refine ⟨?_, hinv.stage.pending_le, ?_, ?_⟩
  · intro text htext
    have hprinted := hinv.printed
    split at hprinted
    · next hexit =>
      obtain ⟨-, hbuf, -⟩ := hinv.stage.ended (by rw [hexit]; trivial)
      rw [htext] at hprinted
      exact ⟨Option.some.inj hprinted, hbuf.trans (received_all msg)⟩
    · rw [htext] at hprinted
      cases hprinted
  · intro hearly
    obtain ⟨hover, -, -⟩ := hinv.stage.ended (by rw [hearly]; trivial)
    rw [hearly] at hover
    cases hover
  · rintro hrunning ⟨hp, hc⟩
    exact hrunning (hinv.finished hp hc)

/-- Perform an event and keep it as the label. -/
def perform (msg : List UInt8) (s : State) (e : Event) : Option (State × Event) :=
  (next msg s e).map fun s' => (s', e)

/-- The schedule of one item. -/
def roundTrip (signo : Signo) : List Event :=
  [.parentSends, .childTakes signo, .childSends, .parentTakes .sig_ack]

/-- One byte, sent while strangers send a last signal to the child and an
    acknowledgement to the parent. -/
def strayRun : List Event :=
  [.strayToChild .sig_fin 7 2, .strayToParent .sig_ack 7 0, .childTakes .sig_fin] ++
    roundTrip .sig_bit ++ [.parentTakes .sig_ack] ++
      (List.replicate 7 (roundTrip .sig_bit)).flatten ++ roundTrip .sig_fin ++
        [.childPrints, .parentReaps]

/-- The message `H`. -/
theorem transfer_stray : ∃ s, (signal_cat [72]).Reachable s ∧ s.printed = some [72] ∧
    (∀ text, s.printed = some text → text = [72] ∧ s.buf = [72] ++ [0]) ∧
    (own s.toParent).length + (own s.toChild).length ≤ 1 ∧
    s.child ≠ .done true ∧
    (¬ (s.parent = .exited ∧ s.child = .exited) → ¬ (ParentIdle s ∧ ChildIdle s)) := by
  have hrun : (System.replay (perform [72]) (initState [72]) strayRun).map (·.1.printed) =
      some (some [72]) := by decide +kernel
  obtain ⟨⟨s, es⟩, hreplay, hprinted⟩ := Option.map_eq_some_iff.mp hrun
  have hreach : (signal_cat [72]).Reachable s := by
    refine (System.Run.of_replay ?_ hreplay).reachable (.init rfl)
    intro s e s' l h
    obtain ⟨s₁, hnext, heq⟩ := Option.map_eq_some_iff.mp h
    cases heq
    exact hnext
  exact ⟨s, hreach, hprinted, transfer [72] (by decide) s hreach⟩

end SignalCat
