import OsLessons.Lib.MsgQueue

/-! # signal_cat: a message sent bit by bit

  `lesson11_signal_cat.c`: the parent sends every bit of the message as one
  real-time signal and waits for an acknowledgement from the child before it
  sends the next one. A last signal ends the transfer.

  Pending signals are kept in the order in which they were sent.
  `sigwaitinfo` takes the first one of some number of the mask, whichever
  number that is; `x_sigwaitinfo` retries after `EINTR`, which is invisible
  here. Strangers may send any signal to either process at any time.
-/

namespace SignalCat

open Lts MsgQueue

/-! ### Signals -/

def BITS : ℕ := 8

/-- `sig_bit`, `sig_ack` and `sig_fin`. -/
inductive Signo where
  | sig_bit
  | sig_ack
  | sig_fin
  deriving DecidableEq, Repr

/-- The offset from `SIGRTMIN`. -/
def Signo.num : Signo → ℕ
  | .sig_bit => 0
  | .sig_ack => 1
  | .sig_fin => 2

/-- `si_pid`. -/
inductive Sender where
  | parent
  | child
  | stranger (pid : ℕ)
  deriving DecidableEq, Repr

/-- `siginfo_t`: the number, the sender and the payload `sival_int`. -/
structure SigInfo where
  signo : Signo
  si_pid : Sender
  sival_int : BitVec 32
  deriving DecidableEq, Repr

/-- The number by which a pending signal is taken. -/
def SigInfo.num (info : SigInfo) : ℕ := info.signo.num

/-- The signal comes from one of the two processes. -/
def SigInfo.own (info : SigInfo) : Bool :=
  match info.si_pid with
  | .parent | .child => true
  | .stranger _ => false

/-! ### Bits -/

/-- `(c >> b) & 1`. -/
def bitOf (c : UInt8) (b : ℕ) : BitVec 32 := (c.toBitVec.setWidth 32 >>> b) &&& 1#32

/-- `c |= (unsigned char)((sival_int & 1) << b)`. -/
def addBit (c : UInt8) (b : ℕ) (sival_int : BitVec 32) : UInt8 :=
  c ||| .ofBitVec (((sival_int &&& 1#32) <<< b).setWidth 8)

/-! ### The two processes -/

/-- Where the parent is, with the indices of its loops. -/
inductive ParentPc where
  /-- sends bit `b` of byte `i` -/
  | sendBit (i b : ℕ)
  /-- waits for the acknowledgement of that bit -/
  | awaitAck (i b : ℕ)
  | sendFin
  | awaitFinAck
  /-- in `waitpid` -/
  | waitpid
  | exited
  deriving DecidableEq, Repr

/-- Where the child is; `c` are the bits of byte `i` that it has. -/
inductive ChildPc where
  /-- waits for bit `b` of byte `i` -/
  | awaitBit (i b : ℕ) (c : UInt8)
  /-- acknowledges that bit, which is in `c` already -/
  | sendAck (i b : ℕ) (c : UInt8)
  | awaitFin
  | sendFinAck
  /-- at the label `done`, `early` if it got there by the `goto` -/
  | done (early : Bool)
  | exited
  deriving DecidableEq, Repr

/-- Both processes, the buffer of the child and what it has printed of it, and
    the signals pending for either. -/
structure State where
  parent : ParentPc
  child : ChildPc
  buf : List UInt8
  printed : Option (List UInt8)
  toParent : List SigInfo
  toChild : List SigInfo
  deriving DecidableEq

/-- Head of the loop over the bytes in `parent_send`. -/
def parentByte (len i : ℕ) : ParentPc := if i < len then .sendBit i 0 else .sendFin

/-- Head of the loop over the bits of byte `i` in `parent_send`. -/
def parentBit (len i b : ℕ) : ParentPc := if b < BITS then .sendBit i b else parentByte len (i + 1)

/-- Head of the loop over the bytes in `child_recv`. -/
def childByte (len i : ℕ) : ChildPc := if i < len then .awaitBit i 0 0 else .awaitFin

/-- Head of the loop over the bits of byte `i` in `child_recv`, with the buffer
    as it is left when the loop is over. -/
def childBit (len i b : ℕ) (c : UInt8) (buf : List UInt8) : ChildPc × List UInt8 :=
  if b < BITS then (.awaitBit i b c, buf) else (childByte len (i + 1), buf.set i c)

/-- Both processes after the `fork`. -/
def initState (msg : List UInt8) : State where
  parent := parentByte msg.length 0
  child := childByte msg.length 0
  buf := List.replicate (msg.length + 1) 0
  printed := none
  toParent := []
  toChild := []

/-! ### Steps -/

/-- What happens in a step. -/
inductive Event where
  | parentSends
  | parentTakes (signo : Signo)
  | parentReaps
  | childSends
  | childTakes (signo : Signo)
  | childPrints
  | strayToParent (signo : Signo) (pid : ℕ) (sival_int : BitVec 32)
  | strayToChild (signo : Signo) (pid : ℕ) (sival_int : BitVec 32)
  deriving DecidableEq

/-- What the parent sends next, and where it goes on. -/
def parent_sends (msg : List UInt8) : ParentPc → Option (SigInfo × ParentPc)
  | .sendBit i b => some (⟨.sig_bit, .parent, bitOf (msg.getD i 0) b⟩, .awaitAck i b)
  | .sendFin => some (⟨.sig_fin, .parent, 2⟩, .awaitFinAck)
  | _ => none

/-- Where the parent goes on after `sigwaitinfo` has returned `info`. -/
def parent_takes (len : ℕ) (info : SigInfo) : ParentPc → Option ParentPc
  | .awaitAck i b =>
      some (if info.signo = .sig_ack ∧ info.si_pid = .child then parentBit len i (b + 1)
        else .awaitAck i b)
  | .awaitFinAck =>
      some (if info.signo = .sig_ack ∧ info.si_pid = .child then .waitpid else .awaitFinAck)
  | _ => none

/-- The acknowledgements of the child, and where it goes on. -/
def child_sends (len : ℕ) (buf : List UInt8) :
    ChildPc → Option (SigInfo × ChildPc × List UInt8)
  | .sendAck i b c => some (⟨.sig_ack, .child, 0⟩, childBit len i (b + 1) c buf)
  | .sendFinAck => some (⟨.sig_ack, .child, 0⟩, .done false, buf)
  | _ => none

/-- Where the child goes on after `sigwaitinfo` has returned `info`. -/
def child_takes (info : SigInfo) (buf : List UInt8) : ChildPc → Option (ChildPc × List UInt8)
  | .awaitBit i b c =>
      some (if info.si_pid ≠ .parent then (.awaitBit i b c, buf)
        else if info.signo = .sig_fin ∧ info.sival_int = 2 then (.done true, buf.set i c)
        else if info.signo = .sig_bit ∨ info.signo = .sig_fin then
          (.sendAck i b (addBit c b info.sival_int), buf)
        else (.awaitBit i b c, buf))
  | .awaitFin =>
      some (if info.si_pid = .parent ∧ info.signo = .sig_fin ∧ info.sival_int = 2 then
          (.sendFinAck, buf)
        else (.awaitFin, buf))
  | _ => none

/-- Perform an event; `none` if it is not possible. -/
def next (msg : List UInt8) (s : State) : Event → Option State
  | .parentSends =>
      (parent_sends msg s.parent).map fun r =>
        { s with toChild := s.toChild ++ [r.1], parent := r.2 }
  | .parentTakes signo =>
      (recv SigInfo.num signo.num s.toParent).bind fun r =>
        (parent_takes msg.length r.1 s.parent).map fun pc =>
          { s with toParent := r.2, parent := pc }
  | .parentReaps =>
      if s.parent = .waitpid ∧ s.child = .exited then some { s with parent := .exited } else none
  | .childSends =>
      (child_sends msg.length s.buf s.child).map fun r =>
        { s with toParent := s.toParent ++ [r.1], child := r.2.1, buf := r.2.2 }
  | .childTakes signo =>
      (recv SigInfo.num signo.num s.toChild).bind fun r =>
        (child_takes r.1 s.buf s.child).map fun c =>
          { s with toChild := r.2, child := c.1, buf := c.2 }
  | .childPrints =>
      match s.child with
      | .done _ =>
          -- `buf[len] = 0`, and `%s` stops at the first zero
          let buf := s.buf.set msg.length 0
          some { s with child := .exited, buf := buf, printed := some (buf.takeWhile (· ≠ 0)) }
      | _ => none
  | .strayToParent signo pid v =>
      some { s with toParent := s.toParent ++ [⟨signo, .stranger pid, v⟩] }
  | .strayToChild signo pid v =>
      some { s with toChild := s.toChild ++ [⟨signo, .stranger pid, v⟩] }

/-- Parent and child in any order, among strangers. -/
def signal_cat (msg : List UInt8) : System State Event where
  init s := s = initState msg
  step s e s' := next msg s e = some s'

end SignalCat
