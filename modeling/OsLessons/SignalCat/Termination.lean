import OsLessons.SignalCat.Transfer

/-! # signal_cat: every transfer ends

  An item of the message, a bit or the last signal, costs four steps: it is sent,
  taken, acknowledged, and the acknowledgement is taken. A stranger's signal
  costs two, its arrival and the step that takes it and goes on waiting.
-/

namespace SignalCat

open Lts MsgQueue

variable {msg : List UInt8} {s s' : State}

/-! ### What is left -/

/-- The items from this one on. -/
def Item.left (len : ℕ) : Item → ℕ
  | .bit i b => BITS * (len - i) - b + 1
  | .fin => 1

theorem Item.left_pos (len : ℕ) (x : Item) : 0 < x.left len := by
  cases x <;> exact Nat.succ_pos _

theorem byteItem_left (len i : ℕ) : (byteItem len i).left len = BITS * (len - i) + 1 := by
  unfold byteItem
  split
  · rfl
  · next h =>
    rw [Item.left, Nat.sub_eq_zero_of_le (not_lt.mp h), Nat.mul_zero]

theorem bitItem_left {len i b : ℕ} (hi : i < len) (hb : b < BITS) :
    (bitItem len i (b + 1)).left len + 1 = (Item.bit i b).left len := by
  have hmore : BITS * (len - i) = BITS * (len - (i + 1)) + BITS := by
    rw [← Nat.mul_succ]
    congr 1
    omega
  unfold bitItem
  split
  · simp only [Item.left]
    omega
  · rw [byteItem_left, Item.left]
    omega

/-- An own signal that is sent is taken later, so it is worth two steps; at the
    end the child is reaped. -/
def ParentPc.weight (len : ℕ) : ParentPc → ℕ
  | .sendBit i b => 2 * (Item.bit i b).left len + 1
  | .awaitAck i b => 2 * (Item.bit i b).left len - 1
  | .sendFin => 3
  | .awaitFinAck | .waitpid => 1
  | .exited => 0

/-- The same for the acknowledgements; at the end the child prints. -/
def ChildPc.weight (len : ℕ) : ChildPc → ℕ
  | .awaitBit i b _ | .sendAck i b _ => 2 * (Item.bit i b).left len + 1
  | .awaitFin | .sendFinAck => 3
  | .done _ => 1
  | .exited => 0

theorem weight_parentByte (len i : ℕ) :
    (parentByte len i).weight len = 2 * (byteItem len i).left len + 1 := by
  unfold parentByte byteItem
  split <;> rfl

theorem weight_parentBit (len i b : ℕ) :
    (parentBit len i b).weight len = 2 * (bitItem len i b).left len + 1 := by
  unfold parentBit bitItem
  split
  · rfl
  · exact weight_parentByte _ _

theorem weight_childByte (len i : ℕ) :
    (childByte len i).weight len = 2 * (byteItem len i).left len + 1 := by
  unfold childByte byteItem
  split <;> rfl

theorem weight_childBit (len i b : ℕ) (c : UInt8) (buf : List UInt8) :
    (childBit len i b c buf).1.weight len = 2 * (bitItem len i b).left len + 1 := by
  unfold childBit bitItem
  split
  · rfl
  · exact weight_childByte _ _

def State.weight (len : ℕ) (s : State) : ℕ :=
  s.parent.weight len + s.child.weight len + s.toParent.length + s.toChild.length

theorem weight_init (msg : List UInt8) :
    (initState msg).weight msg.length = 32 * msg.length + 6 := by
  unfold State.weight initState
  dsimp only
  rw [weight_parentByte, weight_childByte, byteItem_left]
  simp only [BITS, List.length_nil]
  omega

/-! ### Steps -/

/-- The places of both processes are within the message. -/
theorem Stage.bounds {p : ParentPc} {c : ChildPc} {buf : List UInt8} {up down : List SigInfo}
    (h : Stage msg p c buf up down) :
    (∀ i b, p = .awaitAck i b → i < msg.length ∧ b < BITS) ∧
      ∀ i b d, c = .sendAck i b d → i < msg.length ∧ b < BITS := by
  cases h with
  | @ready x hx | @sent x hx | @taken x hx =>
    cases x with
    | bit i b =>
      constructor
      · intro i' b' hp
        cases hp <;> exact hx
      · intro i' b' d hc
        cases hc <;> exact hx
    | fin =>
      constructor
      · intro _ _ hp
        cases hp
      · intro _ _ _ hc
        cases hc
  | @acked i b hi hb =>
    constructor
    · intro i' b' hp
      cases hp
      exact ⟨hi, hb⟩
    · intro i' b' d hc
      cases hy : bitItem msg.length i (b + 1) <;> rw [hy] at hc <;> cases hc
  | @finAcked c hover | @reaping c hover =>
    constructor
    · intro _ _ hp
      cases hp
    · intro i b d hc
      rw [hc] at hover
      exact hover.elim
  | finished =>
    constructor
    · intro _ _ hp
      cases hp
    · intro _ _ _ hc
      cases hc

theorem weight_parent_sends {p : ParentPc} {r : SigInfo × ParentPc}
    (h : parent_sends msg p = some r) :
    r.2.weight msg.length + 2 = p.weight msg.length := by
  cases p with
  | sendBit i b =>
    cases h
    have hpos := (Item.bit i b).left_pos msg.length
    simp only [ParentPc.weight]
    omega
  | sendFin =>
    cases h
    rfl
  | awaitAck | awaitFinAck | waitpid | exited => cases h

theorem weight_parent_takes {len : ℕ} {info : SigInfo} {p p' : ParentPc}
    (h : parent_takes len info p = some p')
    (hp : ∀ i b, p = .awaitAck i b → i < len ∧ b < BITS) : p'.weight len ≤ p.weight len := by
  cases p with
  | awaitAck i b =>
    obtain ⟨hi, hb⟩ := hp i b rfl
    have hleft := bitItem_left hi hb
    cases h
    split
    · rw [weight_parentBit]
      simp only [ParentPc.weight]
      omega
    · exact le_rfl
  | awaitFinAck =>
    cases h
    split <;> exact le_rfl
  | sendBit | sendFin | waitpid | exited => cases h

theorem weight_child_sends {len : ℕ} {buf : List UInt8} {c : ChildPc}
    {r : SigInfo × ChildPc × List UInt8} (h : child_sends len buf c = some r)
    (hc : ∀ i b d, c = .sendAck i b d → i < len ∧ b < BITS) :
    r.2.1.weight len + 2 = c.weight len := by
  cases c with
  | sendAck i b d =>
    obtain ⟨hi, hb⟩ := hc i b d rfl
    have hleft := bitItem_left hi hb
    cases h
    show (childBit len i (b + 1) d buf).1.weight len + 2 = 2 * (Item.bit i b).left len + 1
    rw [weight_childBit]
    omega
  | sendFinAck =>
    cases h
    rfl
  | awaitBit | awaitFin | done | exited => cases h

theorem weight_child_takes (len : ℕ) {info : SigInfo} {buf : List UInt8} {c : ChildPc}
    {r : ChildPc × List UInt8} (h : child_takes info buf c = some r) :
    r.1.weight len ≤ c.weight len := by
  cases c with
  | awaitBit i b d =>
    cases h
    split_ifs
    · exact le_rfl
    · exact Nat.succ_le_succ (Nat.zero_le _)
    · exact le_rfl
    · exact le_rfl
  | awaitFin =>
    cases h
    split <;> exact le_rfl
  | sendAck | sendFinAck | done | exited => cases h

def Event.isStray : Event → Bool
  | .strayToParent .. | .strayToChild .. => true
  | _ => false

theorem weight_step (hinv : Inv msg s) {e : Event} (h : next msg s e = some s') :
    s'.weight msg.length + 1 ≤ s.weight msg.length + if e.isStray then 2 else 0 := by
  obtain ⟨hp, hc⟩ := hinv.stage.bounds
  unfold State.weight
  cases e with
  | parentSends =>
    obtain ⟨r, hr, rfl⟩ := Option.map_eq_some_iff.mp h
    have hsends := weight_parent_sends hr
    simp only [List.length_append, List.length_singleton]
    omega
  | parentTakes signo =>
    obtain ⟨r, hrecv, hrest⟩ := Option.bind_eq_some_iff.mp h
    obtain ⟨p', htakes, rfl⟩ := Option.map_eq_some_iff.mp hrest
    have hlen := (recv_eq_some hrecv).2.2.2.length_eq
    have hweight := weight_parent_takes htakes hp
    rw [List.length_cons] at hlen
    dsimp only
    omega
  | parentReaps =>
    obtain ⟨⟨hwait, _⟩, heq⟩ := Option.ite_none_right_eq_some.mp h
    cases heq
    rw [hwait]
    simp only [ParentPc.weight]
    omega
  | childSends =>
    obtain ⟨r, hr, rfl⟩ := Option.map_eq_some_iff.mp h
    have hsends := weight_child_sends hr hc
    simp only [List.length_append, List.length_singleton]
    omega
  | childTakes signo =>
    obtain ⟨r, hrecv, hrest⟩ := Option.bind_eq_some_iff.mp h
    obtain ⟨c', htakes, rfl⟩ := Option.map_eq_some_iff.mp hrest
    have hlen := (recv_eq_some hrecv).2.2.2.length_eq
    have hweight := weight_child_takes msg.length htakes
    rw [List.length_cons] at hlen
    dsimp only
    omega
  | childPrints =>
    cases hchild : s.child with
    | done early =>
      simp only [next, hchild] at h
      cases h
      simp only [ChildPc.weight]
      omega
    | awaitBit | sendAck | awaitFin | sendFinAck | exited =>
      simp only [next, hchild] at h
      cases h
  | strayToParent | strayToChild =>
    cases h
    simp only [List.length_append, List.length_singleton, Event.isStray, if_true]
    omega

theorem weight_run (hnul : 0 ∉ msg) {es : List Event} (hs : (signal_cat msg).Reachable s)
    (h : (signal_cat msg).Run s es s') :
    s'.weight msg.length + es.length ≤ s.weight msg.length + 2 * es.countP Event.isStray := by
  induction h with
  | nil => exact Nat.le_add_right _ _
  | @cons s s₁ s₂ e es hstep _ ih =>
    have hone := weight_step (inv_reachable hnul hs) hstep
    have hrest := ih (hs.step hstep)
    rw [List.length_cons, List.countP_cons]
    split at hone <;> split <;> omega

/-! ### The end -/

/-- Whatever is pending can be taken. -/
theorem recv_of_mem {q : List SigInfo} {info : SigInfo} (h : info ∈ q) :
    ∃ r, recv SigInfo.num info.signo.num q = some r := by
  rw [← Option.ne_none_iff_exists']
  intro hnone
  have hbox := recv_eq_none.mp hnone
  exact List.filter_eq_nil_iff.mp hbox info h (decide_eq_true rfl)

theorem next_eq_none {e : Event} (h : ¬ (signal_cat msg).Enabled s e) : next msg s e = none := by
  by_contra hsome
  exact h (Option.ne_none_iff_exists'.mp hsome)

theorem parentIdle_of_quiet
    (hquiet : ∀ e, e.isStray = false → ¬ (signal_cat msg).Enabled s e) : ParentIdle s := by
  have hnone := fun e he => next_eq_none (hquiet e he)
  -- who waits could take anything that is pending
  have htakes : (∀ info, (parent_takes msg.length info s.parent).isSome) →
      ∀ info ∈ s.toParent, info.si_pid ≠ .child := by
    intro hwaits info hmem
    obtain ⟨r, hr⟩ := recv_of_mem hmem
    obtain ⟨p, hp⟩ := Option.isSome_iff_exists.mp (hwaits r.1)
    have := hnone (.parentTakes info.signo) rfl
    simp [next, hr, hp] at this
  unfold ParentIdle
  cases hpc : s.parent with
  | sendBit | sendFin =>
    have := hnone .parentSends rfl
    simp [next, parent_sends, hpc] at this
  | awaitAck | awaitFinAck =>
    rw [hpc] at htakes
    exact htakes fun _ => rfl
  | waitpid =>
    intro hexit
    have := hnone .parentReaps rfl
    simp [next, hpc, hexit] at this
  | exited => trivial

theorem childIdle_of_quiet
    (hquiet : ∀ e, e.isStray = false → ¬ (signal_cat msg).Enabled s e) : ChildIdle s := by
  have hnone := fun e he => next_eq_none (hquiet e he)
  have htakes : (∀ info, (child_takes info s.buf s.child).isSome) →
      ∀ info ∈ s.toChild, info.si_pid ≠ .parent := by
    intro hwaits info hmem
    obtain ⟨r, hr⟩ := recv_of_mem hmem
    obtain ⟨c, hc⟩ := Option.isSome_iff_exists.mp (hwaits r.1)
    have := hnone (.childTakes info.signo) rfl
    simp [next, hr, hc] at this
  unfold ChildIdle
  cases hpc : s.child with
  | sendAck | sendFinAck =>
    have := hnone .childSends rfl
    simp [next, child_sends, hpc] at this
  | awaitBit | awaitFin =>
    rw [hpc] at htakes
    exact htakes fun _ => rfl
  | done =>
    have := hnone .childPrints rfl
    simp [next, hpc] at this
  | exited => trivial

theorem quiet_of_exited (hparent : s.parent = .exited) (hchild : s.child = .exited) (e : Event)
    (he : e.isStray = false) : ¬ (signal_cat msg).Enabled s e := by
  rintro ⟨s', h⟩
  cases e with
  | parentSends =>
    obtain ⟨r, hr, -⟩ := Option.map_eq_some_iff.mp h
    rw [hparent] at hr
    cases hr
  | parentTakes signo =>
    obtain ⟨r, -, hrest⟩ := Option.bind_eq_some_iff.mp h
    obtain ⟨p, hp, -⟩ := Option.map_eq_some_iff.mp hrest
    rw [hparent] at hp
    cases hp
  | parentReaps =>
    obtain ⟨⟨hwait, -⟩, -⟩ := Option.ite_none_right_eq_some.mp h
    cases hparent.symm.trans hwait
  | childSends =>
    obtain ⟨r, hr, -⟩ := Option.map_eq_some_iff.mp h
    rw [hchild] at hr
    cases hr
  | childTakes signo =>
    obtain ⟨r, -, hrest⟩ := Option.bind_eq_some_iff.mp h
    obtain ⟨c, hc, -⟩ := Option.map_eq_some_iff.mp hrest
    rw [hchild] at hc
    cases hc
  | childPrints =>
    change next msg s .childPrints = some s' at h
    simp only [next, hchild] at h
    cases h
  | strayToParent | strayToChild => cases he

/-- **Every transfer ends**: a run has at most 32 steps for each byte, six more,
    and two for each stranger's signal. Where only strangers could do anything
    the child has printed the message and both have ended. -/
theorem transfer_ends (msg : List UInt8) (hnul : 0 ∉ msg) {es : List Event} {s : State}
    (h : (signal_cat msg).Run (initState msg) es s) :
    es.length ≤ 32 * msg.length + 6 + 2 * es.countP Event.isStray ∧
      ((∀ e, e.isStray = false → ¬ (signal_cat msg).Enabled s e) →
        s.parent = .exited ∧ s.child = .exited ∧ s.printed = some msg) := by
  have hinit : (signal_cat msg).Reachable (initState msg) := .init rfl
  refine ⟨?_, fun hquiet => ?_⟩
  · have hrun := weight_run hnul hinit h
    rw [weight_init] at hrun
    omega
  · have hinv := inv_reachable hnul (h.reachable hinit)
    obtain ⟨hparent, hchild⟩ :=
      hinv.finished (parentIdle_of_quiet hquiet) (childIdle_of_quiet hquiet)
    refine ⟨hparent, hchild, ?_⟩
    rw [hinv.printed, if_pos hchild]

/-- The byte arrives among two strangers' signals. -/
theorem transfer_ends_stray : ∃ es s, (signal_cat [72]).Run (initState [72]) es s ∧
    es.length ≤ 38 + 2 * es.countP Event.isStray ∧ es.countP Event.isStray = 2 ∧
    s.parent = .exited ∧ s.child = .exited ∧ s.printed = some [72] := by
  have hrun : (System.replay (perform [72]) (initState [72]) strayRun).any (fun r =>
      decide (r.2.countP Event.isStray = 2 ∧ r.1.parent = .exited ∧ r.1.child = .exited)) =
        true := by
    decide +kernel
  obtain ⟨⟨s, es⟩, hreplay, hends⟩ := (Option.any_eq_true _ _).mp hrun
  obtain ⟨hstrays, hparent, hchild⟩ := of_decide_eq_true hends
  have h : (signal_cat [72]).Run (initState [72]) es s := by
    refine System.Run.of_replay ?_ hreplay
    intro s e s' l hperform
    obtain ⟨s₁, hnext, heq⟩ := Option.map_eq_some_iff.mp hperform
    cases heq
    exact hnext
  obtain ⟨hlen, hquiet⟩ := transfer_ends [72] (by decide) h
  exact ⟨es, s, h, hlen, hstrays, hquiet (quiet_of_exited hparent hchild)⟩

end SignalCat
