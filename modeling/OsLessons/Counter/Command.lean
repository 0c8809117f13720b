import OsLessons.Counter.Model
import OsLessons.Lib.FdTable
import OsLessons.Lib.Transition

/-! # The counter: what a command writes

  `main` of `lesson4_counter.c` with a command: the child makes the write end
  of a pipe its standard output and becomes the command, the parent counts what
  comes out of the pipe, waits for the child and prints.

  The command is anything. It and the processes it starts write what they like,
  duplicate and close the descriptors they have of the pipe, in any order, and
  the command ends with any status. Whether a call fails is part of the event.
-/

namespace Counter.Command

open Lts Posix Reads

/-! ### States -/

/-- What a descriptor refers to. -/
inductive Desc (α : Type) where
  | inherited (a : α)
  | readEnd
  | writeEnd

def Desc.isReadEnd {α : Type} : Desc α → Bool
  | .readEnd => true
  | _ => false

def Desc.isWriteEnd {α : Type} : Desc α → Bool
  | .writeEnd => true
  | _ => false

abbrev Table (α : Type) := FdTable (Desc α)

/-- How many descriptors refer to an end of the pipe. -/
def holds {α : Type} (isEnd : Desc α → Bool) (t : Table α) : ℕ :=
  (List.range t.limit).countP fun fd => (t.slot fd).any isEnd

inductive Status where
  | exited (code : Fin 256)
  | signaled (sig : ℕ)
  deriving DecidableEq

/-- What `main` returns when it has printed. -/
def Status.result : Status → ℕ
  | .exited code => if code ≠ 0 then code else 0
  | .signaled _ => 0

abbrev Pfd := ℕ × ℕ

deriving instance DecidableEq for Counter.State

/-- Program points of the parent; `pfd` are the descriptors of the pipe. -/
inductive ParentPc where
  | pipe
  | fork (pfd : Pfd)
  | closeWriter (pfd : Pfd)
  /-- in `count_fd` -/
  | read (pfd : Pfd) (st : Counter.State)
  | closeReader (pfd : Pfd) (c : Counts)
  | waitpid (c : Counts)
  | print (c : Counts) (status : Status)
  | exited (rc : ℕ)
  deriving DecidableEq

/-- Program points of the child. -/
inductive ChildPc where
  | unborn
  | closeReader (pfd : Pfd)
  | dup2 (pfd : Pfd)
  | closeWriter (pfd : Pfd)
  | exec
  /-- it is the command now -/
  | command
  | ended (status : Status)
  deriving DecidableEq

/-- The two processes with their descriptors, what is in the pipe, how many
    descriptors the command and its processes have of the write end, all they
    have ever written to it, and what the counter has printed. -/
structure State (α : Type) where
  parent : ParentPc
  child : ChildPc
  fds : Table α
  childFds : Table α
  pipe : Bytes
  holders : ℕ
  written : Bytes
  shown : Option String

def ParentPc.running : ParentPc → Bool
  | .exited _ => false
  | _ => true

/-- The child runs the code of `main`. -/
def ChildPc.starting : ChildPc → Bool
  | .closeReader _ | .dup2 _ | .closeWriter _ | .exec => true
  | _ => false

variable {α : Type}

def State.writerOpen (s : State α) : Prop :=
  (s.parent.running = true ∧ 0 < holds Desc.isWriteEnd s.fds) ∨
    (s.child.starting = true ∧ 0 < holds Desc.isWriteEnd s.childFds) ∨ 0 < s.holders

def State.readerOpen (s : State α) : Prop :=
  (s.parent.running = true ∧ 0 < holds Desc.isReadEnd s.fds) ∨
    (s.child.starting = true ∧ 0 < holds Desc.isReadEnd s.childFds)

instance (s : State α) : Decidable s.writerOpen := inferInstanceAs (Decidable (_ ∨ _))
instance (s : State α) : Decidable s.readerOpen := inferInstanceAs (Decidable (_ ∨ _))

/-! ### Steps -/

inductive Event where
  /-- the next call of the parent, or of the child before it is the command;
      `ok`: it does not fail -/
  | parent (ok : Bool)
  | child (ok : Bool)
  /-- `read` returns `n` to the parent -/
  | read (n : ℕ)
  /-- the command, or a process of it, writes -/
  | write (bs : Bytes)
  | dup
  | close
  | exit (status : Status)
  deriving DecidableEq

/-- `printf("%llu %llu %llu\n", c.bytes, c.words, c.lines)` -/
def report (c : Counts) : String :=
  toString c.bytes ++ " " ++ toString c.words ++ " " ++ toString c.lines ++ "\n"

/-- The parent's next call, but for `read`. -/
def parent (s : State α) : Option (State α) :=
  match s.parent with
  | .pipe => (s.fds.pipe .readEnd .writeEnd).map fun r => { s with fds := r.2, parent := .fork r.1 }
  | .fork pfd =>
      some { s with parent := .closeWriter pfd, child := .closeReader pfd, childFds := s.fds }
  | .closeWriter pfd =>
      some { s with
        fds := s.fds.close pfd.2
        parent := .read pfd { c := ⟨0, 0, 0⟩, in_word := false } }
  | .closeReader pfd c => some { s with fds := s.fds.close pfd.1, parent := .waitpid c }
  | .waitpid c =>
      match s.child with
      | .ended status => some { s with parent := .print c status }
      | _ => none
  | .print c status => some { s with shown := some (report c), parent := .exited status.result }
  | .read _ _ | .exited _ => none

/-- The parent's next call fails. -/
def parentFails (s : State α) : Option (State α) :=
  match s.parent with
  | .exited _ => none
  -- nobody looks at the result of `printf`
  | .print _ status => some { s with parent := .exited status.result }
  | _ => some { s with parent := .exited 1 }

/-- `read(pfd[0], buf, sizeof buf)` returns `n`. -/
def parentRead (s : State α) (n : ℕ) : Option (State α) :=
  match s.parent with
  | .read pfd st =>
      if (s.fds.slot pfd.1).any Desc.isReadEnd then
        if n = 0 then
          if s.pipe = [] ∧ ¬ s.writerOpen then some { s with parent := .closeReader pfd st.c }
          else none
        else if n ≤ BUF_SIZE ∧ n ≤ s.pipe.length then
          some { s with
            pipe := s.pipe.drop n
            parent := .read pfd (count_chunk st (s.pipe.take n)) }
        else none
      else none
  | _ => none

/-- The child's next call. -/
def child (s : State α) : Option (State α) :=
  match s.child with
  | .closeReader pfd => some { s with childFds := s.childFds.close pfd.1, child := .dup2 pfd }
  | .dup2 pfd =>
      (s.childFds.dup2 pfd.2 1).map fun t => { s with childFds := t, child := .closeWriter pfd }
  | .closeWriter pfd => some { s with childFds := s.childFds.close pfd.2, child := .exec }
  | .exec => some { s with child := .command, holders := holds Desc.isWriteEnd s.childFds }
  | .unborn | .command | .ended _ => none

/-- The child's next call fails: `_exit(127)`. -/
def childFails (s : State α) : Option (State α) :=
  if s.child.starting then some { s with child := .ended (.exited 127) } else none

/-- One event, over a pipe that holds `cap` bytes. -/
def next (cap : ℕ) (s : State α) : Event → Option (State α)
  | .parent true => parent s
  | .parent false => parentFails s
  | .child true => child s
  | .child false => childFails s
  | .read n => parentRead s n
  | .write bs =>
      if 0 < s.holders ∧ s.readerOpen ∧ s.pipe.length + bs.length ≤ cap then
        some { s with pipe := s.pipe ++ bs, written := s.written ++ bs }
      else none
  | .dup => if 0 < s.holders then some { s with holders := s.holders + 1 } else none
  | .close => if 0 < s.holders then some { s with holders := s.holders - 1 } else none
  | .exit status =>
      match s.child with
      | .command => some { s with child := .ended status }
      | _ => none

def init (t : FdTable α) : State α where
  parent := .pipe
  child := .unborn
  fds := t.map .inherited
  childFds := t.map .inherited
  pipe := []
  holders := 0
  written := []
  shown := none

/-- The counter and its command in any order; `t` are the descriptors that
    `main` finds. -/
def counter (t : FdTable α) (cap : ℕ) : System (State α) Event where
  init s := s = init t
  step s e s' := next cap s e = some s'

/-- `main`: with no operand, what is on standard input. -/
def main_stdin (stdin : Fd BUF_SIZE) : Option String × ℕ :=
  match count_fd stdin ⟨0, 0, 0⟩ with
  | some c => (some (report c), 0)
  | none => (none, 1)

end Counter.Command
