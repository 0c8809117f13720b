import OsLessons.Bogatyr.Assignment

/-! # The phases of a choir

  `Inv` says in which phase a choir is and what follows for every process and
  every message in flight:

  - `electing`: the `LOCK` is in the queue, nobody is conductor;
  - `collecting`: one conductor, registrations are being collected;
  - `Led`: the conductor is somewhere in its loops over `ASSIGN`, the song,
    `DONE` and `BYE`.

  In the `Led` phases the letters the conductor has sent to a worker and not
  seen answered determine, together with the program point of the worker,
  what is in its mailbox (`Follows`).
-/

namespace Bogatyr

open Lts MsgQueue

/-! ### Message types -/

section types

theorem MT_TO_inj {p p' : ℕ} : MT_TO p = MT_TO p' ↔ p = p' := by simp [MT_TO]
@[simp] theorem MT_TO_ne_LOCK (p : ℕ) : MT_TO p ≠ MT_LOCK := by simp [MT_TO, MT_LOCK]
@[simp] theorem MT_TO_ne_REG (p : ℕ) : MT_TO p ≠ MT_REG := by simp [MT_TO, MT_REG]
@[simp] theorem MT_TO_ne_ACK (p : ℕ) : MT_TO p ≠ MT_ACK := by simp [MT_TO, MT_ACK]
@[simp] theorem LOCK_ne_MT_TO (p : ℕ) : MT_LOCK ≠ MT_TO p := (MT_TO_ne_LOCK p).symm
@[simp] theorem REG_ne_MT_TO (p : ℕ) : MT_REG ≠ MT_TO p := (MT_TO_ne_REG p).symm
@[simp] theorem ACK_ne_MT_TO (p : ℕ) : MT_ACK ≠ MT_TO p := (MT_TO_ne_ACK p).symm
@[simp] theorem LOCK_ne_REG : MT_LOCK ≠ MT_REG := by decide
@[simp] theorem LOCK_ne_ACK : MT_LOCK ≠ MT_ACK := by decide
@[simp] theorem REG_ne_LOCK : MT_REG ≠ MT_LOCK := by decide
@[simp] theorem REG_ne_ACK : MT_REG ≠ MT_ACK := by decide
@[simp] theorem ACK_ne_LOCK : MT_ACK ≠ MT_LOCK := by decide
@[simp] theorem ACK_ne_REG : MT_ACK ≠ MT_REG := by decide

end types

/-- The messages of type `t` in the queue. -/
abbrev mail (t : ℕ) (q : List Msg) : List Msg := box Msg.mtype t q

/-- The types a message in the queue can have. -/
def types (cfg : Config) : Finset ℕ := {MT_LOCK, MT_REG, MT_ACK} ∪ cfg.pids.image MT_TO

theorem MT_TO_mem_types {cfg : Config} {p : ℕ} (hp : p ∈ cfg.pids) : MT_TO p ∈ types cfg := by
  simp only [types, Finset.mem_union, Finset.mem_image]
  exact .inr ⟨p, hp, rfl⟩

@[simp] theorem MT_REG_mem_types {cfg : Config} : MT_REG ∈ types cfg := by simp [types]
@[simp] theorem MT_ACK_mem_types {cfg : Config} : MT_ACK ∈ types cfg := by simp [types]
@[simp] theorem MT_LOCK_mem_types {cfg : Config} : MT_LOCK ∈ types cfg := by simp [types]

/-! ### Before everybody has registered -/

/-- Everybody but the conductor `lead` is at its registration or about to try
    the lock; `heard` are the registrations the conductor has taken out. -/
structure Muster (cfg : Config) (lead : Option ℕ) (locks : List Msg) (heard : List ℕ)
    (s : State) (q : List Msg) : Prop where
  queue : s.queue = some q
  lock : mail MT_LOCK q = locks
  ack : mail MT_ACK q = []
  letters : ∀ p, mail (MT_TO p) q = []
  reg : ∀ m ∈ mail MT_REG q, m = regMsg m.pid
  heard_nodup : (heard ++ (mail MT_REG q).map Msg.pid).Nodup
  heard_mem : ∀ p, p ∈ heard ++ (mail MT_REG q).map Msg.pid ↔
    p ∈ cfg.pids ∧ (s.proc p).pc ≠ .register
  fresh : ∀ p ∈ cfg.pids, lead ≠ some p →
    s.proc p = ⟨.register, false, 0⟩ ∨ s.proc p = ⟨.tryLock, false, 0⟩ ∨
      (lead ≠ none ∧ s.proc p = ⟨.awaitAssign, false, 0⟩)
  types : ∀ m ∈ q, m.mtype ∈ types cfg

/-! ### Workers -/

/-- Worker `p`, to which conductor `c` has sent the letters `sent` that are not
    answered yet, is at `P` and has `mail` in its mailbox. -/
inductive Follows (cfg : Config) (c p : ℕ) : List Msg → Proc → List Msg → Prop where
  -- before it has read its `ASSIGN`, whatever was sent is still in the mailbox
  | locking (sent) : Follows cfg c p sent ⟨.tryLock, false, 0⟩ sent
  | waiting (sent) : Follows cfg c p sent ⟨.awaitAssign, false, 0⟩ sent
  -- it has read the `ASSIGN`, which is not answered
  | ready (mail) : Follows cfg c p (assignMsg c p (assigned cfg p) :: mail)
      ⟨.ready, false, assigned cfg p⟩ mail
  -- it is dealing with a `TURN`, the conductor waits for the `ACK`
  | turned (seq ch) : Follows cfg c p [assignMsg c p (assigned cfg p), turnMsg c p seq ch]
      ⟨.turned seq ch, false, assigned cfg p⟩ []
  | sung (seq ch) : Follows cfg c p [assignMsg c p (assigned cfg p), turnMsg c p seq ch]
      ⟨.sendAck seq, false, assigned cfg p⟩ []
  -- it has read the `DONE`
  | dismissed : Follows cfg c p [assignMsg c p (assigned cfg p), doneMsg c p]
      ⟨.sendBye, false, assigned cfg p⟩ []
  | left : Follows cfg c p [assignMsg c p (assigned cfg p), doneMsg c p]
      ⟨.exited .success, false, assigned cfg p⟩ []

/-- The letters a worker can have: `ASSIGN` first, then at most one more. -/
inductive Script (cfg : Config) (c p : ℕ) : List Msg → Prop where
  | nothing : Script cfg c p []
  | assign : Script cfg c p [assignMsg c p (assigned cfg p)]
  | turn (seq ch) : Script cfg c p [assignMsg c p (assigned cfg p), turnMsg c p seq ch]
  | done : Script cfg c p [assignMsg c p (assigned cfg p), doneMsg c p]

/-- Everybody is registered; the conductor `c` has sent the letters `sent`,
    and the answers `acks` are waiting for it. -/
structure Choir (cfg : Config) (c : ℕ) (sent : ℕ → List Msg) (acks : List Msg)
    (s : State) (q : List Msg) : Prop where
  queue : s.queue = some q
  lock : mail MT_LOCK q = []
  reg : mail MT_REG q = []
  ack : mail MT_ACK q = acks
  own : mail (MT_TO c) q = sent c
  follows : ∀ p ∈ cfg.pids, p ≠ c →
    Follows cfg c p (sent p) (s.proc p) (mail (MT_TO p) q)
  script : ∀ p ∈ cfg.pids, p ≠ c → Script cfg c p (sent p)
  types : ∀ m ∈ q, m.mtype ∈ types cfg

/-! ### The conductor -/

/-- `ASSIGN` has been sent to the first `i` processes. -/
def assigns (cfg : Config) (c i p : ℕ) : List Msg :=
  if p ∈ (order cfg).take i then [assignMsg c p (assigned cfg p)] else []

/-- Every `ASSIGN` has been sent, and `TURN` number `seq` to `singer`. -/
def turns (cfg : Config) (c singer seq : ℕ) (ch : UInt8) (p : ℕ) : List Msg :=
  if p = singer then [assignMsg c p (assigned cfg p), turnMsg c p seq ch]
  else [assignMsg c p (assigned cfg p)]

/-- Every `ASSIGN` has been sent, and `DONE` to the workers among the first `i`. -/
def dones (cfg : Config) (c i p : ℕ) : List Msg :=
  if p ∈ (order cfg).take i ∧ p ≠ c then [assignMsg c p (assigned cfg p), doneMsg c p]
  else [assignMsg c p (assigned cfg p)]

/-- The first `k` bytes of the song, each with its owner. -/
def chorus (cfg : Config) (k : ℕ) : List (ℕ × UInt8) :=
  (cfg.song.bytes.take k).map fun ch => ((owner cfg ch).getD 0, ch)

/-- The whole song and the newline that conductor `c` adds. -/
def concert (cfg : Config) (c : ℕ) : List (ℕ × UInt8) :=
  chorus cfg cfg.song.bytes.length ++ if needs_newline cfg.song then [(c, 10)] else []

/-- The workers that have sent their `BYE`. -/
def leavers (cfg : Config) (c : ℕ) (s : State) : Finset ℕ :=
  (cfg.pids.erase c).filter fun p => (s.proc p).pc = .exited .success

/-- The phases after the registration, by the program point of conductor `c`. -/
inductive Led (cfg : Config) (c : ℕ) (s : State) : Prop where
  | assigning (i : ℕ) (q : List Msg)
      (proc : s.proc c = ⟨.assign (order cfg) i, true,
        if c ∈ (order cfg).take i then assigned cfg c else 0⟩)
      (choir : Choir cfg c (assigns cfg c i) [] s q)
      (out : s.out = [])
  | singing (seq : ℕ) (q : List Msg)
      (proc : s.proc c = ⟨.sing (order cfg) seq, true, assigned cfg c⟩)
      (le : seq ≤ cfg.song.bytes.length)
      (choir : Choir cfg c (dones cfg c 0) [] s q)
      (out : s.out = chorus cfg seq)
  | turn (seq singer : ℕ) (ch : UInt8) (q : List Msg)
      (song : cfg.song.bytes[seq]? = some ch)
      (own : owner cfg ch = some singer) (ne : singer ≠ c)
      (proc : s.proc c = ⟨.awaitAck (order cfg) seq, true, assigned cfg c⟩)
      (choir : Choir cfg c (turns cfg c singer seq ch) [] s q)
      (out : s.out = chorus cfg (if (s.proc singer).pc = .sendAck seq then seq + 1 else seq))
  | acked (seq singer : ℕ) (q : List Msg)
      (lt : seq < cfg.song.bytes.length)
      (proc : s.proc c = ⟨.awaitAck (order cfg) seq, true, assigned cfg c⟩)
      (choir : Choir cfg c (dones cfg c 0) [ackMsg singer seq] s q)
      (out : s.out = chorus cfg (seq + 1))
  | dismissing (i : ℕ) (acks q : List Msg)
      (proc : s.proc c = ⟨.dismiss (order cfg) i, true, assigned cfg c⟩)
      (choir : Choir cfg c (dones cfg c i) acks s q)
      (byes : ∀ m ∈ acks, m.kind = .BYE)
      (count : acks.length = (leavers cfg c s).card)
      (out : s.out = concert cfg c)
  | awaiting (k : ℕ) (acks q : List Msg)
      (proc : s.proc c = ⟨.awaitBye k, true, assigned cfg c⟩)
      (choir : Choir cfg c (dones cfg c cfg.n) acks s q)
      (byes : ∀ m ∈ acks, m.kind = .BYE)
      (count : k + (leavers cfg c s).card = cfg.n - 1 + acks.length)
      (out : s.out = concert cfg c)
  | finished
      (proc : s.proc c = ⟨.exited .success, true, assigned cfg c⟩)
      (queue : s.queue = none)
      (workers : ∀ p ∈ cfg.pids, p ≠ c →
        s.proc p = ⟨.exited .success, false, assigned cfg p⟩)
      (out : s.out = concert cfg c)

/-- What holds in every reachable state of a choir with enough processes. -/
inductive Inv (cfg : Config) (s : State) : Prop where
  | electing (q : List Msg) (muster : Muster cfg none [lockMsg] [] s q) (out : s.out = [])
  | collecting (c : ℕ) (heard : List ℕ) (q : List Msg) (mem : c ∈ cfg.pids)
      (proc : s.proc c = ⟨.collect heard, true, 0⟩)
      (muster : Muster cfg (some c) [] heard s q) (out : s.out = [])
  | led (c : ℕ) (mem : c ∈ cfg.pids) (led : Led cfg c s)

theorem inv_init {cfg : Config} : Inv cfg initState := by
  refine .electing [lockMsg] ⟨rfl, by decide, by decide, ?_, by decide, by decide, ?_, ?_, ?_⟩ rfl
  · intro p
    simp [mail, box, lockMsg]
  · intro p
    have hbox : mail MT_REG [lockMsg] = [] := by decide
    simp [hbox, initState]
  · intro p _ _
    exact .inl rfl
  · intro m hm
    obtain rfl : m = lockMsg := by simpa using hm
    exact MT_LOCK_mem_types

/-- One step of process `p`. -/
abbrev Moves (cfg : Config) (s : State) (p : ℕ) (s' : State) (call : Call Msg) : Prop :=
  Step Msg.mtype cfg.cap (op cfg) s p s' call

/-! ### The code, point by point -/

section code
variable {cfg : Config} {c p i pid seq singer k : ℕ} {ch m : UInt8} {heard : List ℕ}

theorem op_tryLock : op cfg p ⟨.tryLock, false, 0⟩ = .msgrcv MT_LOCK true fun
    | some tmp => if tmp.kind = .LOCK then ⟨.collect [], true, 0⟩ else ⟨.awaitAssign, false, 0⟩
    | none => ⟨.awaitAssign, false, 0⟩ := rfl

theorem op_awaitAssign : op cfg p ⟨.awaitAssign, false, 0⟩ = .msgrcv (MT_TO p) false fun
    | some asg =>
      if asg.kind = .ASSIGN then ⟨.ready, false, asg.ch⟩ else ⟨.exited .badASSIGN, false, 0⟩
    | none => ⟨.exited .died, false, 0⟩ := rfl

theorem op_collect (hlen : heard.length < cfg.n) :
    op cfg c ⟨.collect heard, true, 0⟩ = .msgrcv MT_REG false fun
      | some r =>
        ⟨if r.kind = .REG then .collect (heard ++ [r.pid]) else .exited .badREG, true, 0⟩
      | none => ⟨.exited .died, true, 0⟩ := by
  show (if heard.length < cfg.n then _ else _) = _
  rw [if_pos hlen]
  rfl

theorem op_collect_end (fits : Fits cfg) (hlen : ¬ heard.length < cfg.n) :
    op cfg c ⟨.collect heard, true, 0⟩ = .compute ⟨.assign (qsort heard) 0, true, 0⟩ := by
  show (if heard.length < cfg.n then _ else if cfg.n < (symbols cfg).length then _ else _) = _
  rw [if_neg hlen, if_neg (by rw [length_symbols]; exact not_lt.mpr fits)]
  rfl

theorem op_assign (hi : (order cfg)[i]? = some pid) :
    op cfg c ⟨.assign (order cfg) i, true, m⟩ = .msgsnd (assignMsg c pid (assigned cfg pid)) fun
      | true => ⟨.assign (order cfg) (i + 1), true, if pid = c then assigned cfg pid else m⟩
      | false => ⟨.exited .died, true, m⟩ := by
  simp only [op, hi]
  rfl

theorem op_assign_end (hi : (order cfg)[i]? = none) :
    op cfg c ⟨.assign (order cfg) i, true, m⟩ = .compute ⟨.sing (order cfg) 0, true, m⟩ := by
  simp only [op, hi]
  rfl

/-- The conductor sings a byte of its own. -/
theorem op_sing_own (fits : Fits cfg) (hseq : cfg.song.bytes[seq]? = some ch)
    (hown : owner cfg ch = some c) :
    op cfg c ⟨.sing (order cfg) seq, true, assigned cfg c⟩ =
      .write ch ⟨.sing (order cfg) (seq + 1), true, assigned cfg c⟩ := by
  have hmine : assigned cfg c ≠ 0 := by
    rw [assigned_of_owner fits hown]
    exact ne_zero_of_mem (List.mem_of_getElem? hseq)
  have hsinger : owner_of (collect_unique cfg.song 256) (order cfg) ch = some c := hown
  simp only [op, hseq, hsinger]
  rw [if_pos trivial, if_pos hmine]
  rfl

theorem op_sing_turn (hseq : cfg.song.bytes[seq]? = some ch)
    (hown : owner cfg ch = some singer) (hne : singer ≠ c) :
    op cfg c ⟨.sing (order cfg) seq, true, m⟩ = .msgsnd (turnMsg c singer seq ch) fun ok =>
      ⟨if ok then .awaitAck (order cfg) seq else .exited .died, true, m⟩ := by
  have hsinger : owner_of (collect_unique cfg.song 256) (order cfg) ch = some singer := hown
  simp only [op, hseq, hsinger]
  rw [if_neg hne]
  rfl

theorem op_sing_newline (hseq : cfg.song.bytes[seq]? = none)
    (hnl : needs_newline cfg.song = true) :
    op cfg c ⟨.sing (order cfg) seq, true, m⟩ =
      .write 10 ⟨.dismiss (order cfg) 0, true, m⟩ := by
  simp only [op, hseq]
  exact if_pos hnl

theorem op_sing_end (hseq : cfg.song.bytes[seq]? = none) (hnl : ¬ needs_newline cfg.song = true) :
    op cfg c ⟨.sing (order cfg) seq, true, m⟩ =
      .compute ⟨.dismiss (order cfg) 0, true, m⟩ := by
  simp only [op, hseq]
  exact if_neg hnl

theorem op_awaitAck : op cfg c ⟨.awaitAck (order cfg) seq, true, m⟩ = .msgrcv MT_ACK false fun
    | some ack => ⟨if ack.kind = .ACK ∧ ack.seq = seq then .sing (order cfg) (seq + 1)
        else .exited .badACK, true, m⟩
    | none => ⟨.exited .died, true, m⟩ := rfl

theorem op_dismiss_self (hi : (order cfg)[i]? = some c) :
    op cfg c ⟨.dismiss (order cfg) i, true, m⟩ =
      .compute ⟨.dismiss (order cfg) (i + 1), true, m⟩ := by
  simp only [op, hi, ↓reduceIte]
  rfl

theorem op_dismiss (hi : (order cfg)[i]? = some pid) (hne : pid ≠ c) :
    op cfg c ⟨.dismiss (order cfg) i, true, m⟩ = .msgsnd (doneMsg c pid) fun ok =>
      ⟨if ok then .dismiss (order cfg) (i + 1) else .exited .died, true, m⟩ := by
  simp only [op, hi]
  exact if_neg hne

theorem op_dismiss_end (hi : (order cfg)[i]? = none) :
    op cfg c ⟨.dismiss (order cfg) i, true, m⟩ = .compute ⟨.awaitBye (cfg.n - 1), true, m⟩ := by
  simp only [op, hi]
  rfl

/-- A worker waits for its turn. -/
theorem op_ready (p : ℕ) : op cfg p ⟨.ready, false, m⟩ = .msgrcv (MT_TO p) false fun
    | some letter => ⟨match letter.kind with
        | .TURN => .turned letter.seq letter.ch
        | .DONE => .sendBye
        | _ => .ready, false, m⟩
    | none => ⟨.exited .died, false, m⟩ := rfl

theorem op_awaitBye (hk : 0 < k) :
    op cfg c ⟨.awaitBye k, true, m⟩ = .msgrcv MT_ACK false fun
      | some bye => ⟨.awaitBye (if bye.kind = .BYE then k - 1 else k), true, m⟩
      | none => ⟨.exited .died, true, m⟩ := if_pos hk

theorem op_awaitBye_end (hk : ¬ 0 < k) :
    op cfg c ⟨.awaitBye k, true, m⟩ = .rmid ⟨.exited .success, true, m⟩ := if_neg hk

end code

/-! ### Steps before everybody has registered -/

section muster
variable {cfg : Config} {lead : Option ℕ} {locks : List Msg} {heard : List ℕ} {s s' : State}
  {q : List Msg} {p : ℕ} {call : Call Msg}

/-- A process registers. -/
theorem Muster.register (h : Muster cfg lead locks heard s q) (hp : p ∈ cfg.pids)
    (hproc : s.proc p = ⟨.register, false, 0⟩) (hs : Moves cfg s p s' call) :
    s' = { s with queue := some (q ++ [regMsg p]) }.goto p ⟨.tryLock, false, 0⟩ ∧
      Muster cfg lead locks heard s' (q ++ [regMsg p]) := by
  have hop : op cfg p (s.proc p) = .msgsnd (regMsg p) fun ok =>
      ⟨if ok then .tryLock else .exited .died, false, 0⟩ := by
    rw [hproc]
    rfl
  obtain ⟨_, _, rfl⟩ := hs.of_msgsnd hop h.queue
  have hreg : mail MT_REG (q ++ [regMsg p]) = mail MT_REG q ++ [regMsg p] := by
    simp [mail, box_snoc, regMsg]
  have hnew : p ∉ heard ++ (mail MT_REG q).map Msg.pid := by
    rw [h.heard_mem]
    simp [hproc]
  refine ⟨rfl, rfl, ?_, ?_, ?_, ?_, ?_, ?_, ?_, ?_⟩
  · simpa [mail, box_snoc, regMsg] using h.lock
  · simpa [mail, box_snoc, regMsg] using h.ack
  · intro p'
    simpa [mail, box_snoc, regMsg] using h.letters p'
  · rw [hreg]
    intro m hm
    rcases List.mem_append.mp hm with hm | hm
    · exact h.reg m hm
    · rw [List.mem_singleton.mp hm]
      rfl
  · rw [hreg, List.map_append, ← List.append_assoc]
    refine h.heard_nodup.append (List.nodup_singleton p) ?_
    simpa [regMsg] using hnew
  · intro p'
    rw [hreg, List.map_append, ← List.append_assoc, List.mem_append, h.heard_mem]
    by_cases hp' : p' = p
    · subst hp'
      simp [hp, regMsg]
    · simp [Host.goto_proc_ne _ _ hp', hp', regMsg]
  · intro p' hp' hlead
    by_cases heq : p' = p
    · subst heq
      exact .inr (.inl (Host.goto_proc_self ..))
    · rw [Host.goto_proc_ne _ _ heq]
      exact h.fresh p' hp' hlead
  · intro m hm
    rcases List.mem_append.mp hm with hm | hm
    · exact h.types m hm
    · rw [List.mem_singleton.mp hm]
      exact MT_REG_mem_types

/-- A process takes the `LOCK`. -/
theorem Muster.take_lock (h : Muster cfg none [lockMsg] [] s q) (hp : p ∈ cfg.pids)
    (hproc : s.proc p = ⟨.tryLock, false, 0⟩) (hs : Moves cfg s p s' call) :
    s'.proc p = ⟨.collect [], true, 0⟩ ∧ s'.out = s.out ∧
      ∃ q', Muster cfg (some p) [] [] s' q' := by
  rcases hs.of_poll (by rw [hproc]; exact op_tryLock) h.queue with ⟨m, q', hrecv, _, rfl⟩ | ⟨hrecv, _, _⟩
  · obtain ⟨_, hbox, hother, hperm⟩ := recv_eq_some hrecv
    obtain ⟨rfl, hlock⟩ : lockMsg = m ∧ [] = mail MT_LOCK q' := by
      have := h.lock.symm.trans hbox
      simpa using this
    have hpc : (if lockMsg.kind = .LOCK then (⟨.collect [], true, 0⟩ : Proc)
        else ⟨.awaitAssign, false, 0⟩) = ⟨.collect [], true, 0⟩ := rfl
    have hreg : mail MT_REG q' = mail MT_REG q := hother MT_REG (by simp)
    refine ⟨by simp [hpc], rfl, q', rfl, hlock.symm, ?_, ?_, ?_, ?_, ?_, ?_, ?_⟩
    · exact (hother MT_ACK (by simp)).trans h.ack
    · intro p'
      exact (hother (MT_TO p') (by simp)).trans (h.letters p')
    · rw [hreg]
      exact h.reg
    · rw [hreg]
      exact h.heard_nodup
    · intro p'
      rw [hreg, h.heard_mem]
      by_cases hp' : p' = p
      · subst hp'
        simp [hproc, hpc]
      · simp [Host.goto_proc_ne _ _ hp']
    · intro p' hp' hlead
      have hne : p' ≠ p := fun h' => hlead (by rw [h'])
      rw [Host.goto_proc_ne _ _ hne]
      rcases h.fresh p' hp' (by simp) with hf | hf | ⟨hno, _⟩
      · exact .inl hf
      · exact .inr (.inl hf)
      · exact absurd rfl hno
    · intro m hm
      exact h.types m (hperm.symm.subset (List.mem_cons_of_mem _ hm))
  · have hnone : mail MT_LOCK q = [] := recv_eq_none.mp hrecv
    rw [h.lock] at hnone
    simp at hnone

/-- A process finds the `LOCK` gone and becomes a worker. -/
theorem Muster.miss_lock {c : ℕ} (h : Muster cfg (some c) [] heard s q) (hp : p ∈ cfg.pids)
    (hproc : s.proc p = ⟨.tryLock, false, 0⟩) (hs : Moves cfg s p s' call) :
    s' = s.goto p ⟨.awaitAssign, false, 0⟩ ∧ Muster cfg (some c) [] heard s' q := by
  rcases hs.of_poll (by rw [hproc]; exact op_tryLock) h.queue with ⟨m, q', hrecv, _, _⟩ | ⟨_, _, rfl⟩
  · have hbox : mail MT_LOCK q = m :: mail MT_LOCK q' := (recv_eq_some hrecv).2.1
    rw [h.lock] at hbox
    simp at hbox
  · refine ⟨rfl, h.queue, h.lock, h.ack, h.letters, h.reg, h.heard_nodup, ?_, ?_, h.types⟩
    · intro p'
      rw [h.heard_mem]
      by_cases hp' : p' = p
      · subst hp'
        simp [hproc]
      · simp [Host.goto_proc_ne _ _ hp']
    · intro p' hp' hlead
      by_cases heq : p' = p
      · subst heq
        exact .inr (.inr ⟨by simp, Host.goto_proc_self ..⟩)
      · rw [Host.goto_proc_ne _ _ heq]
        exact h.fresh p' hp' hlead

/-- The conductor takes a registration out of the queue. -/
theorem Muster.hear {c : ℕ} (h : Muster cfg (some c) [] heard s q)
    (hproc : s.proc c = ⟨.collect heard, true, 0⟩) (hlen : heard.length < cfg.n)
    (hs : Moves cfg s c s' call) :
    ∃ p' q', s'.proc c = ⟨.collect (heard ++ [p']), true, 0⟩ ∧ s'.out = s.out ∧
      Muster cfg (some c) [] (heard ++ [p']) s' q' := by
  obtain ⟨m, q', hrecv, _, rfl⟩ :=
    hs.of_msgrcv (by rw [hproc]; exact op_collect hlen) h.queue
  obtain ⟨_, hbox, hother, hperm⟩ := recv_eq_some hrecv
  have hm : m = regMsg m.pid := h.reg m (by rw [show mail MT_REG q = _ from hbox]; simp)
  have hkind : m.kind = .REG := by rw [hm]; rfl
  have hall : heard ++ (mail MT_REG q).map Msg.pid =
      heard ++ [m.pid] ++ (mail MT_REG q').map Msg.pid := by
    rw [show mail MT_REG q = _ from hbox]
    simp
  refine ⟨m.pid, q', by simp [hkind], rfl, rfl, ?_, ?_, ?_, ?_, ?_, ?_, ?_, ?_⟩
  · exact (hother MT_LOCK (by simp)).trans h.lock
  · exact (hother MT_ACK (by simp)).trans h.ack
  · intro p'
    exact (hother (MT_TO p') (by simp)).trans (h.letters p')
  · intro m' hm'
    exact h.reg m' (by rw [show mail MT_REG q = _ from hbox]; exact List.mem_cons_of_mem _ hm')
  · rw [← hall]
    exact h.heard_nodup
  · intro p'
    rw [← hall, h.heard_mem]
    by_cases hp' : p' = c
    · subst hp'
      simp [hproc, hkind]
    · simp [Host.goto_proc_ne _ _ hp']
  · intro p' hp' hlead
    rw [Host.goto_proc_ne _ _ (fun h' => hlead (by rw [h']))]
    exact h.fresh p' hp' hlead
  · intro m' hm'
    exact h.types m' (hperm.symm.subset (List.mem_cons_of_mem _ hm'))

/-- With `n` registrations heard, everybody has registered. -/
theorem Muster.all_heard {c : ℕ} (h : Muster cfg (some c) [] heard s q)
    (hlen : ¬ heard.length < cfg.n) :
    qsort heard = order cfg ∧ mail MT_REG q = [] ∧
      ∀ p ∈ cfg.pids, (s.proc p).pc ≠ .register := by
  have hnodup := h.heard_nodup
  have hsub : (heard ++ (mail MT_REG q).map Msg.pid).toFinset ⊆ cfg.pids := by
    intro p hp
    exact ((h.heard_mem p).mp (List.mem_toFinset.mp hp)).1
  have hcard := Finset.card_le_card hsub
  rw [List.toFinset_card_of_nodup hnodup, List.length_append, List.length_map] at hcard
  have hn : cfg.pids.card = cfg.n := rfl
  have hempty : mail MT_REG q = [] := List.eq_nil_of_length_eq_zero (by omega)
  simp only [hempty, List.map_nil, List.append_nil, List.length_nil] at hnodup hsub hcard
  have heq : heard.toFinset = cfg.pids := by
    refine Finset.eq_of_subset_of_card_le hsub ?_
    rw [List.toFinset_card_of_nodup hnodup]
    omega
  have hmem : ∀ p, p ∈ heard ↔ p ∈ cfg.pids := by
    intro p
    rw [← heq, List.mem_toFinset]
  refine ⟨qsort_eq hnodup hmem, hempty, fun p hp => ?_⟩
  have := (h.heard_mem p).mp (by simp [hempty, (hmem p).mpr hp])
  exact this.2

end muster

end Bogatyr
