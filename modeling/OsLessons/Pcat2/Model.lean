import OsLessons.Lib.Monitor

/-! # pcat2: two threads around a one-slot buffer

  `writer_thread` copies its operands into the slot of a monitor and
  `reader_thread` copies the slot to standard output. System calls are
  answered by the environment: every answer a call can give is an event of
  its own, with short reads and writes, `EINTR` and failures.
-/

namespace Pcat2

open Lts Monitor

abbrev Bytes := List UInt8

def BUFSZ : ℕ := 4096
def EINTR : ℕ := 4
def EIO : ℕ := 5

/-! ### The monitor -/

inductive Thread where
  | writer | reader
  deriving DecidableEq

instance : Fintype Thread := ⟨{.writer, .reader}, fun t => by cases t <;> simp⟩

/-- The condition variables. -/
inductive Cond where
  | can_put | can_get
  deriving DecidableEq

/-- A call of `mon_fail_locked`. -/
structure Fault where
  caller : Thread
  err_no : ℕ
  err_ctx : String
  deriving DecidableEq

/-- The fields of `Monitor` under its mutex; `buf` holds the first `len`
    bytes of the buffer. -/
structure Mon where
  full : Bool := false
  done : Bool := false
  stop : Bool := false
  buf : Bytes := []
  err_no : ℕ := 0
  err_ctx : Option String := none
  deriving DecidableEq

/-- The monitor with its history: the calls of `mon_fail_locked` in order. -/
structure Shared extends Mon where
  calls : List Fault := []
  deriving DecidableEq

def mon_init : Shared := {}

def mon_fail_locked (m : Shared) (f : Fault) : Shared :=
  -- only the first failure is kept
  if m.stop then { m with calls := m.calls ++ [f] }
  else { m with
    stop := true
    err_no := f.err_no
    err_ctx := some f.err_ctx
    calls := m.calls ++ [f] }

/-! ### System calls -/

structure Operand where
  name : String
  content : Bytes
  deriving DecidableEq

/-- The command line: `argc == 1`, or a list of operands. -/
inductive Args where
  | stdin (content : Bytes)
  | files (fs : List Operand)

/-- What the program has read so far, in order, and what is on standard output. -/
structure World where
  input : Bytes := []
  output : Bytes := []
  deriving DecidableEq

/-- What a system call returns. -/
inductive Answer where
  | opened
  | openError (err_no : ℕ)
  | got (n : ℕ)
  | eof
  | readError (err_no : ℕ)
  | wrote (n : ℕ)
  | writeError (err_no : ℕ)
  deriving DecidableEq

/-- The call is repeated at once. -/
def Answer.idle : Answer → Bool
  | .readError e | .writeError e => e = EINTR
  | _ => false

/-- `open` failed, or `read` failed with an error other than `EINTR`. -/
def Answer.operandFails : Answer → Bool
  | .openError _ => true
  | .readError e => e ≠ EINTR
  | _ => false

/-- `write` failed with an error other than `EINTR`. -/
def Answer.stdoutFails : Answer → Bool
  | .writeError e => e ≠ EINTR
  | _ => false

/-! ### The writer -/

/-- The file that is being copied: its name, what is left of it, and the
    operands after it (`none` for standard input). -/
structure Cursor where
  name : String
  left : Bytes
  rest : Option (List Operand)
  deriving DecidableEq

/-- Program points of `writer_thread` and `copy_fd_to_monitor`. -/
inductive WriterPc where
  /-- at the head of the loop over the operands -/
  | openNext (fs : List Operand)
  | read (c : Cursor)
  /-- before the lock, or in `pthread_cond_wait`, with `tmp` in hand -/
  | put (c : Cursor) (tmp : Bytes)
  | putLocked (c : Cursor) (tmp : Bytes)
  /-- `copy_fd_to_monitor` has returned; the file is closed -/
  | returned (c : Cursor)
  | check (fs : List Operand)
  /-- before `mon_fail_locked`; `k` is the file when its `read` failed -/
  | fail (err_no : ℕ) (ctx : String) (k : Option Cursor)
  | failLocked (err_no : ℕ) (ctx : String) (k : Option Cursor)
  /-- after a `break` -/
  | finish
  | setDone
  | exited
  deriving DecidableEq

def WriterPc.start : Args → WriterPc
  | .stdin content => .read ⟨"stdin", content, none⟩
  | .files fs => .openNext fs

/-- Where the writer goes on after it has recorded a failure. -/
def WriterPc.afterFail : Option Cursor → WriterPc
  | none => .finish
  | some c => .returned c

def openOperand (f : Operand) (fs : List Operand) (x : World) : Answer → Option (World × WriterPc)
  | .opened => some (x, .read ⟨f.name, f.content, some fs⟩)
  | .openError e => some (x, .fail e f.name none)
  | _ => none

/-- One `read` of `read_retry`. -/
def readChunk (c : Cursor) (x : World) : Answer → Option (World × WriterPc)
  -- a short read is possible, an empty one only at the end
  | .got n =>
      if 0 < n ∧ n ≤ BUFSZ ∧ n ≤ c.left.length then
        some ({ x with input := x.input ++ c.left.take n },
          .put { c with left := c.left.drop n } (c.left.take n))
      else none
  | .eof => if c.left = [] then some (x, .returned c) else none
  | .readError e =>
      if e = EINTR then some (x, .read c) else some (x, .fail e c.name (some c))
  | _ => none

/-- The critical section of `copy_fd_to_monitor`. -/
def putChunk (c : Cursor) (tmp : Bytes) (m : Shared) : Leave Shared Cond WriterPc :=
  -- `while (mon->full && !mon->stop)`, one test of it
  if m.full && !m.stop then { data := m, sleep := some .can_put, next := .put c tmp }
  -- the chunk in hand is dropped
  else if m.stop then { data := m, next := .returned c }
  else
    { data := { m with buf := tmp, full := true }
      wakes := [.signal .can_get]
      next := .read c }

def writer_thread : WriterPc → Op Shared Cond World Answer WriterPc
  | .openNext [] => .lock .setDone
  | .openNext (f :: fs) => .call (openOperand f fs)
  | .read c => .call (readChunk c)
  | .put c tmp => .lock (.putLocked c tmp)
  | .putLocked c tmp => .critical (putChunk c tmp)
  | .returned c =>
      match c.rest with
      | none => .lock .setDone
      | some fs => .lock (.check fs)
  | .check fs => .critical fun m => { data := m, next := if m.stop then .finish else .openNext fs }
  | .fail e ctx k => .lock (.failLocked e ctx k)
  | .failLocked e ctx k => .critical fun m =>
      { data := mon_fail_locked m ⟨.writer, e, ctx⟩
        wakes := [.broadcast .can_put, .broadcast .can_get]
        next := .afterFail k }
  | .finish => .lock .setDone
  | .setDone => .critical fun m =>
      { data := { m with done := true }
        wakes := [.broadcast .can_get]
        next := .exited }
  | .exited => .exit

/-! ### The reader -/

/-- Program points of `reader_thread` and `write_all`. -/
inductive ReaderPc where
  /-- before the lock, or in `pthread_cond_wait` -/
  | get
  | getLocked
  /-- in `write_all`, with `left` still to write -/
  | write (left : Bytes)
  | fail (err_no : ℕ)
  | failLocked (err_no : ℕ)
  | exited
  deriving DecidableEq

/-- One `write` of `write_all`. -/
def writeChunk (left : Bytes) (x : World) : Answer → Option (World × ReaderPc)
  | .wrote n =>
      if 0 < n ∧ n ≤ left.length then
        some ({ x with output := x.output ++ left.take n }, .write (left.drop n))
      else none
  | .writeError e => if e = EINTR then some (x, .write left) else some (x, .fail e)
  | _ => none

/-- The critical section of `reader_thread`. -/
def getChunk (m : Shared) : Leave Shared Cond ReaderPc :=
  -- `while (!mon->full && !mon->done && !mon->stop)`, one test of it
  if !m.full && !m.done && !m.stop then { data := m, sleep := some .can_get, next := .get }
  -- a chunk that is still in the slot stays there
  else if m.stop then { data := m, next := .exited }
  else if !m.full && m.done then { data := m, next := .exited }
  else
    { data := { m with full := false }
      wakes := [.signal .can_put]
      next := .write m.buf }

def reader_thread : ReaderPc → Op Shared Cond World Answer ReaderPc
  | .get => .lock .getLocked
  | .getLocked => .critical getChunk
  -- `write_all` has nothing left and the loop starts over
  | .write [] => .lock .getLocked
  | .write (b :: left) => .call (writeChunk (b :: left))
  | .fail e => .lock (.failLocked e)
  | .failLocked e => .critical fun m =>
      { data := mon_fail_locked m ⟨.reader, e, "stdout"⟩
        wakes := [.broadcast .can_put, .broadcast .can_get]
        next := .exited }
  | .exited => .exit

/-! ### The program -/

@[reducible] def Pc : Thread → Type
  | .writer => WriterPc
  | .reader => ReaderPc

def op : ∀ t, Pc t → Op Shared Cond World Answer (Pc t)
  | .writer => writer_thread
  | .reader => reader_thread

abbrev State := Host Shared Cond World Pc

def init (args : Args) : State where
  data := mon_init
  owner := none
  asleep _ := none
  thread
    | .writer => WriterPc.start args
    | .reader => ReaderPc.get
  world := {}

/-- Both threads from their creation on. -/
def pcat2 (args : Args) : System State (Event Thread Answer) :=
  Monitor.system op fun s => s = init args

def writerPc (s : State) : WriterPc := s.thread .writer
def readerPc (s : State) : ReaderPc := s.thread .reader

/-- Both threads can be joined. -/
def Exited (s : State) : Prop := writerPc s = .exited ∧ readerPc s = .exited

instance (s : State) : Decidable (Exited s) := inferInstanceAs (Decidable (_ ∧ _))

/-- The end of `main`: its return value, and the context and error it prints. -/
def main (m : Mon) : ℕ × Option (String × ℕ) :=
  if m.stop then (1, some (m.err_ctx.getD "error", if m.err_no = 0 then EIO else m.err_no))
  else (0, none)

/-! ### Failures -/

/-- The event is a failed `open`, or a `read` that failed other than with `EINTR`. -/
def operandFails : Event Thread Answer → Bool
  | .call _ a => a.operandFails
  | _ => false

/-- The event is a `write` that failed other than with `EINTR`. -/
def stdoutFails : Event Thread Answer → Bool
  | .call _ a => a.stdoutFails
  | _ => false

end Pcat2
