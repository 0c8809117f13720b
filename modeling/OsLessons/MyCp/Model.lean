import OsLessons.Lib.FileSystem

/-! # my_cp

  `copy_file` opens both files (`open_files`), copies with one `read` or
  `write` a step (`Transfer.step`) and closes the destination (`finish`). What
  the calls answer comes from an environment: `open` and `unlink` fail for the
  reasons of the file system or for one of the environment's own, a transfer
  is as short as the environment wants.

  `fstat` of an open file succeeds, and `stat` fails only if the path leads
  nowhere. The options have been read.
-/

namespace MyCp

open FileSystem

/-- `-f`, `-i` and `-v` -/
structure Opts where
  f : Bool
  i : Bool
  v : Bool

/-! ### The environment -/

/-- What a `read` or `write` answers: at most that many bytes, or an error. -/
inductive Answer where
  | ok (n : ℕ)
  | err (e : Errno)
  deriving DecidableEq

/-- The answers of the calls of one `copy_file`; an error of `open` or `unlink`
    comes before any of the file system. -/
structure Env where
  openSrc : Option Errno
  openDst : Option Errno
  unlink : Option Errno
  reopenDst : Option Errno
  /-- the `k`-th call of `read` or `write` -/
  io : ℕ → Answer
  close : Option Errno

/-- What is printed. -/
inductive Message where
  | perror (what : Path)
  | omitting (src : Path)
  | same (src dst : Path)
  | question (dst : Path)
  | skipped (dst : Path)
  | copied (src dst : Path)
  | notDirectory (dest : Path)
  | usage
  deriving DecidableEq

/-- The files, the standard input that is left, and what was printed. -/
structure Proc where
  fs : FS
  stdin : List UInt8
  out : List Message

def Proc.say (p : Proc) (msg : Message) : Proc := { p with out := p.out ++ [msg] }

@[simp] theorem Proc.say_fs (p : Proc) (msg : Message) : (p.say msg).fs = p.fs := rfl
@[simp] theorem Proc.say_stdin (p : Proc) (msg : Message) : (p.say msg).stdin = p.stdin := rfl

/-! ### `confirm_overwrite` -/

def NEWLINE : UInt8 := 0x0a

/-- `while ((d = getchar()) != '\n' && d != EOF)` -/
def skip_line : List UInt8 → List UInt8
  | [] => []
  | d :: s => if d = NEWLINE then s else skip_line s

/-- The answer, and the input behind it. -/
def read_answer : List UInt8 → Bool × List UInt8
  | [] => (false, skip_line [])
  | c :: s => (c = 0x79 || c = 0x59, if c ≠ NEWLINE then skip_line s else s)

def confirm_overwrite (dst : Path) (p : Proc) : Bool × Proc :=
  let p := p.say (.question dst)
  ((read_answer p.stdin).1, { p with stdin := (read_answer p.stdin).2 })

/-! ### Copying -/

def BUF_SIZE : ℕ := 65536

def READ : Path := [0x72, 0x65, 0x61, 0x64]
def WRITE : Path := [0x77, 0x72, 0x69, 0x74, 0x65]
def CLOSE : Path := [0x63, 0x6c, 0x6f, 0x73, 0x65]

inductive Phase where
  | copying | eof | readFailed | writeFailed
  deriving DecidableEq

/-- The two loops: the offsets of both descriptors, and the bytes of the buffer
    that are still to be written. `answers` is a ghost that lists what the calls
    so far answered. -/
structure Transfer where
  fs : FS
  in_fd : Ino
  out_fd : Ino
  in_pos : ℕ
  out_pos : ℕ
  buf : List UInt8
  phase : Phase
  answers : List Answer

/-- Both files are open and nothing has been read. -/
def Transfer.start (fs : FS) (in_fd out_fd : Ino) : Transfer :=
  ⟨fs, in_fd, out_fd, 0, 0, [], .copying, []⟩

/-- At least one byte and at most `max`, as many as the environment wants. -/
def amount (n max : ℕ) : ℕ := min (n + 1) max

/-- The next call: `write` while there is something in the buffer, else `read`. -/
def Transfer.step (t : Transfer) (a : Answer) : Transfer :=
  match t.phase with
  | .copying =>
      let t := { t with answers := t.answers ++ [a] }
      match t.buf, a with
      | [], .err _ => { t with phase := .readFailed }
      | [], .ok n =>
          let chunk := ((t.fs.data t.in_fd).drop t.in_pos).take (amount n BUF_SIZE)
          if chunk = [] then { t with phase := .eof }
          else { t with buf := chunk, in_pos := t.in_pos + chunk.length }
      | _ :: _, .err _ => { t with phase := .writeFailed }
      | c :: buf, .ok n =>
          let w := amount n (c :: buf).length
          { t with
            fs := t.fs.setData t.out_fd
              (writeAt (t.fs.data t.out_fd) t.out_pos ((c :: buf).take w))
            out_pos := t.out_pos + w
            buf := (c :: buf).drop w }
  | _ => t

/-- The first `n` calls. -/
def Transfer.steps (io : ℕ → Answer) : ℕ → Transfer → Transfer
  | 0, t => t
  | n + 1, t => (Transfer.steps io n t).step (io n)

/-! ### `copy_file` -/

/-- Why `copy_file` ends. -/
inductive Ending where
  | srcFailed | directory | same | declined | dstFailed | readFailed | writeFailed | closeFailed
  | copied
  deriving DecidableEq

structure Result where
  rc : ℤ
  ending : Ending
  proc : Proc

/-- A call that fails with an error of the environment, if there is one. -/
def orError {α : Type*} (e : Option Errno) (r : Except Errno α) : Except Errno α :=
  match e with
  | some e => .error e
  | none => r

/-- `(void)unlink(dst)` -/
def force_unlink (env : Env) (dst : Path) (fs : FS) : FS :=
  match orError env.unlink (fs.unlink dst) with
  | .ok fs => fs
  | .error _ => fs

/-- `open(dst, O_WRONLY | O_CREAT | O_TRUNC)`, once more behind `unlink` with `-f`. -/
def open_dst (env : Env) (o : Opts) (dst : Path) (fs : FS) : Except FS (FS × Ino) :=
  match orError env.openDst (fs.open_trunc dst) with
  | .ok (out_fd, fs) => .ok (fs, out_fd)
  | .error e =>
      if o.f ∧ e ≠ .ENOENT then
        match orError env.reopenDst ((force_unlink env dst fs).open_trunc dst) with
        | .ok (out_fd, fs) => .ok (fs, out_fd)
        | .error _ => .error (force_unlink env dst fs)
      else .error fs

/-- The question, if there is one. -/
def agree (o : Opts) (dst : Path) (p : Proc) : Bool × Proc :=
  if (p.fs.stat dst).isSome && o.i then confirm_overwrite dst p else (true, p)

/-- Up to the point where both files are open. -/
def open_files (env : Env) (o : Opts) (src dst : Path) (p : Proc) :
    Except Result (Transfer × Proc) :=
  match orError env.openSrc (p.fs.open_read src) with
  | .error _ => .error ⟨-1, .srcFailed, p.say (.perror src)⟩
  | .ok in_fd =>
      if p.fs.isDir in_fd then .error ⟨-1, .directory, p.say (.omitting src)⟩
      else if p.fs.isReg in_fd ∧ p.fs.stat dst = some in_fd then
        .error ⟨-1, .same, p.say (.same src dst)⟩
      else
        match agree o dst p with
        | (false, p) => .error ⟨0, .declined, if o.v then p.say (.skipped dst) else p⟩
        | (true, p) =>
            match open_dst env o dst p.fs with
            | .error fs => .error ⟨-1, .dstFailed, { p with fs := fs }.say (.perror dst)⟩
            | .ok (fs, out_fd) => .ok (.start fs in_fd out_fd, { p with fs := fs })

/-- Behind the loops; `none` if they have not ended. -/
def finish (env : Env) (o : Opts) (src dst : Path) (t : Transfer) (p : Proc) : Option Result :=
  let p := { p with fs := t.fs }
  match t.phase with
  | .copying => none
  | .readFailed => some ⟨-1, .readFailed, p.say (.perror READ)⟩
  | .writeFailed => some ⟨-1, .writeFailed, p.say (.perror WRITE)⟩
  | .eof =>
      match env.close with
      | some _ => some ⟨-1, .closeFailed, p.say (.perror CLOSE)⟩
      | none => some ⟨0, .copied, if o.v then p.say (.copied src dst) else p⟩

/-- `copy_file`, with at most `fuel` calls of `read` and `write`. -/
def copy_file (fuel : ℕ) (env : Env) (o : Opts) (src dst : Path) (p : Proc) : Option Result :=
  match open_files env o src dst p with
  | .error r => some r
  | .ok (t, p) => finish env o src dst (t.steps env.io fuel) p

end MyCp
