import OsLessons.Lib.Transition

/-! # pipe_my_cat: cat through a child

  `lesson4_pipe_my_cat.c`: the parent copies its input into a pipe and a child
  copies the pipe to standard output, both with `write_all`. `EINTR` is
  retried; any other failure ends a loop. The parent returns 0 behind its loop
  and does not wait for the child.

  Every answer of a system call is an event. A `write` to the pipe takes what
  there is room for, and kills the parent or fails once the child has ended.
-/

namespace PipeMyCat

open Lts

abbrev Bytes := List UInt8

def BUF_SIZE : ℕ := 4096

/-! ### States -/

/-- Program points of the parent. -/
inductive ParentPc where
  | open
  | pipe
  | fork
  /-- `close(pfd[0])` -/
  | closeReader
  | read
  /-- in `write_all`, with `left` still to write -/
  | write (left : Bytes)
  /-- behind the loop, at `close(pfd[1])` -/
  | close
  | returning
  | exited (status : ℕ)
  /-- by `SIGPIPE` -/
  | killed
  deriving DecidableEq

/-- Program points of the child. -/
inductive ChildPc where
  | unborn
  /-- `close(pfd[1])` -/
  | closeWriter
  | read
  /-- in `write_all`, with `left` still to write -/
  | write (left : Bytes)
  /-- a call has failed -/
  | failing
  /-- behind the loop, at `close(pfd[0])` -/
  | close
  | exited (status : ℕ)
  /-- by `SIGPIPE` -/
  | killed
  deriving DecidableEq

/-- `write_all` has nothing left, or goes on. -/
def ParentPc.write_all (left : Bytes) : ParentPc := if left = [] then .read else .write left
def ChildPc.write_all (left : Bytes) : ChildPc := if left = [] then .read else .write left

/-- The command line (`file`: there is an operand other than `-`), the content
    of the input, and the capacity of the pipe. -/
structure Config where
  file : Bool
  input : Bytes
  cap : ℕ

/-- The two processes, what is left of the input, what is in the pipe, and what
    is on standard output. -/
structure State where
  parent : ParentPc
  child : ChildPc
  rest : Bytes
  pipe : Bytes
  out : Bytes
  deriving DecidableEq

/-- The child has the pipe open for reading. -/
def State.readerOpen (s : State) : Bool :=
  match s.child with
  | .closeWriter | .read | .write _ | .failing | .close => true
  | _ => false

/-- The parent has the pipe open for writing. -/
def State.writerOpen (s : State) : Bool :=
  match s.parent with
  | .closeReader | .read | .write _ | .close => true
  | _ => false

/-! ### Calls -/

inductive Proc where
  | parent | child
  deriving DecidableEq

/-- How a call returns. -/
inductive Answer where
  | ok
  /-- `read` or `write` of that many bytes -/
  | count (n : ℕ)
  /-- `errno == EINTR` -/
  | interrupted
  | failed
  /-- the call raises `SIGPIPE` -/
  | killed
  deriving DecidableEq

abbrev Event := Proc × Answer

/-- A call that does what it is to do. -/
def goOn (s' : State) : Answer → Option State
  | .ok => some s'
  | _ => none

/-- A call that sets something up: the parent returns 1 if it fails. -/
def setup (s s' : State) : Answer → Option State
  | .ok => some s'
  | .failed => some { s with parent := .exited 1 }
  | _ => none

/-- `read(in, buf, sizeof buf)` and what follows from its result. -/
def parentRead (s : State) : Answer → Option State
  | .count n =>
      if n = 0 then
        if s.rest = [] then some { s with parent := .close } else none
      else if n ≤ BUF_SIZE ∧ n ≤ s.rest.length then
        some { s with rest := s.rest.drop n, parent := .write_all (s.rest.take n) }
      else none
  | .interrupted => some s
  | .failed => some { s with parent := .close }
  | _ => none

/-- One `write` of `write_all(pfd[1], buf, n)`. -/
def parentWrite (cfg : Config) (s : State) (left : Bytes) : Answer → Option State
  | .count n =>
      if s.readerOpen ∧ 0 < n ∧ n ≤ left.length ∧ s.pipe.length + n ≤ cfg.cap then
        some { s with pipe := s.pipe ++ left.take n, parent := .write_all (left.drop n) }
      else none
  | .interrupted => some s
  | .failed => some { s with parent := .close }
  | .killed => if s.readerOpen then none else some { s with parent := .killed }
  | _ => none

def parent (cfg : Config) (s : State) (a : Answer) : Option State :=
  match s.parent with
  | .read => parentRead s a
  | .write left => parentWrite cfg s left a
  | .exited _ | .killed => none
  | .open => setup s { s with parent := .pipe } a
  | .pipe => setup s { s with parent := .fork } a
  | .fork => setup s { s with parent := .closeReader, child := .closeWriter } a
  | .closeReader => goOn { s with parent := .read } a
  | .close => goOn { s with parent := .returning } a
  | .returning => goOn { s with parent := .exited 0 } a

/-- `read(pfd[0], buf, sizeof buf)` and what follows from its result. -/
def childRead (s : State) : Answer → Option State
  | .count n =>
      if n = 0 then
        if s.pipe = [] ∧ ¬ s.writerOpen then some { s with child := .close } else none
      else if n ≤ BUF_SIZE ∧ n ≤ s.pipe.length then
        some { s with pipe := s.pipe.drop n, child := .write_all (s.pipe.take n) }
      else none
  | .interrupted => some s
  | .failed => some { s with child := .failing }
  | _ => none

/-- One `write` of `write_all(STDOUT_FILENO, buf, n)`. -/
def childWrite (s : State) (left : Bytes) : Answer → Option State
  | .count n =>
      if 0 < n ∧ n ≤ left.length then
        some { s with out := s.out ++ left.take n, child := .write_all (left.drop n) }
      else none
  | .interrupted => some s
  | .failed => some { s with child := .failing }
  | .killed => some { s with child := .killed }
  | _ => none

def child (s : State) (a : Answer) : Option State :=
  match s.child with
  | .read => childRead s a
  | .write left => childWrite s left a
  | .unborn | .exited _ | .killed => none
  | .closeWriter => goOn { s with child := .read } a
  | .failing => goOn { s with child := .exited 1 } a
  | .close => goOn { s with child := .exited 0 } a

/-! ### The program -/

def next (cfg : Config) (s : State) : Event → Option State
  | (.parent, a) => parent cfg s a
  | (.child, a) => child s a

def init (cfg : Config) : State where
  parent := if cfg.file then .open else .pipe
  child := .unborn
  rest := cfg.input
  pipe := []
  out := []

/-- Parent and child in any order. -/
def pipe_my_cat (cfg : Config) : System State Event where
  init s := s = init cfg
  step s e s' := next cfg s e = some s'

/-- The child has ended. -/
def ChildPc.ended : ChildPc → Bool
  | .exited _ | .killed => true
  | _ => false

/-! ### Failures -/

/-- What a process has in its buffer. -/
def ParentPc.left : ParentPc → Bytes
  | .write left => left
  | _ => []

def ChildPc.left : ChildPc → Bytes
  | .write left => left
  | _ => []

/-- The call fails while bytes are still to go through it: there is input left
    to read, a chunk left to write, or something in the pipe or on its way there. -/
def loses (s : State) : Event → Bool
  | (.parent, .failed) =>
      match s.parent with
      | .read => s.rest != []
      | .write _ => true
      | _ => false
  | (.child, .failed) =>
      match s.child with
      | .read => s.pipe ++ s.parent.left ++ s.rest != []
      | .write _ => true
      | _ => false
  | (.child, .killed) => true
  | _ => false

end PipeMyCat
