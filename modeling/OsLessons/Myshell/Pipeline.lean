import OsLessons.Lib.FdTable

/-! # myshell: redirections and the pipeline

  `run_pipeline` from the point where it starts to fork: the parent's loops
  over pipes, children and waits, and what a child does to its descriptors
  before it runs its command. Allocations succeed; every other call may fail
  wherever the environment says so.
-/

namespace Myshell

open Posix

/-- A word of a command, without its terminating zero. -/
abbrev Word := List UInt8

/-- The words `<`, `>` and `>>`. -/
def LT : Word := [0x3c]
def GT : Word := [0x3e]
def GTGT : Word := [0x3e, 0x3e]

/-! ### Redirections -/

structure Redirs where
  in_path : Option Word := none
  out_path : Option Word := none
  append : Bool := false
  deriving DecidableEq

/-- The loop of `extract_redirs`: `kept` are the words at the front of the
    array; `none` if a redirection has no file. -/
def extract_redirs_loop : List Word → List Word → Redirs → Option (List Word × Redirs)
  | [], kept, r => some (kept, r)
  | w :: ws, kept, r =>
      if w = LT then
        match ws with
        | [] => none
        | path :: ws => extract_redirs_loop ws kept { r with in_path := some path }
      else if w = GT ∨ w = GTGT then
        match ws with
        | [] => none
        | path :: ws =>
            extract_redirs_loop ws kept
              { r with out_path := some path, append := w[1]? = some 0x3e }
      else extract_redirs_loop ws (kept ++ [w]) r

def extract_redirs (argv : List Word) : Option (List Word × Redirs) :=
  extract_redirs_loop argv [] {}

/-! ### Where a line runs -/

def EXIT : Word := [0x65, 0x78, 0x69, 0x74]
def CD : Word := [0x63, 0x64]
def PWD : Word := [0x70, 0x77, 0x64]

def is_builtin (cmd : Word) : Bool := cmd = EXIT || cmd = CD || cmd = PWD

/-- `nsegs == 1 && argvs[0] && argvs[0][0] && is_builtin(argvs[0][0])`: the
    parent runs the line itself. -/
def inParent : List (List Word) → Bool
  | [cmd :: _] => is_builtin cmd
  | _ => false

/-- What `run_pipeline` gives each command: its words and its redirections, or
    `none` for a syntax error. In the parent nobody looks for redirections. -/
def given (argvs : List (List Word)) : List (Option (List Word × Redirs)) :=
  if inParent argvs then argvs.map fun ws => some (ws, {}) else argvs.map extract_redirs

/-! ### The environment -/

/-- What a descriptor refers to: what was open when the pipeline started, an
    end of the `k`-th pipe, or a file of a redirection. -/
inductive Desc (α : Type) where
  | inherited (a : α)
  | readEnd (k : ℕ)
  | writeEnd (k : ℕ)
  | inFile (path : Word)
  | outFile (path : Word) (append : Bool)

/-- An end of one of the pipes of the pipeline. -/
def Desc.IsPipeEnd {α : Type} : Desc α → Prop
  | .readEnd _ | .writeEnd _ => True
  | _ => False

abbrev Table (α : Type) := FdTable (Desc α)

/-- The calls of a child that can fail. -/
inductive ChildCall where
  | dup2Stdin | dup2Stdout | openIn | dup2In | openOut | dup2Out

inductive Status where
  | exited (code : ℕ)
  | signaled (sig : ℕ)
  | other

/-- What the calls of a run return. -/
structure Env where
  /-- the `i`-th `pipe` fails although there are descriptors left -/
  pipeFails : ℕ → Bool
  /-- the process id that the `i`-th `fork` returns; `none` if it fails -/
  fork : ℕ → Option ℕ
  /-- a call of child `i` fails although its descriptors are in order -/
  childFails : ℕ → ChildCall → Bool
  /-- the status that `waitpid` returns for a process; `none` if it fails -/
  waitpid : ℕ → Option Status

/-! ### A child -/

section child
variable {α : Type}

/-- The two ends of a pipe. -/
abbrev Pipe := ℕ × ℕ

def close_pipes (pipes : List Pipe) (t : Table α) : Table α :=
  pipes.foldl (fun t p => (t.close p.1).close p.2) t

/-- A call that ends the child with `code` if it fails. -/
def orExit {β : Type*} (code : ℕ) (fails : Bool) (r : Option β) : Except ℕ β :=
  match r, fails with
  | some b, false => .ok b
  | _, _ => .error code

/-- `dup2(p, fd)` of the end of a neighbouring pipe, if there is one. -/
def connect (fails : Bool) (fd : ℕ) (p : Option ℕ) (t : Table α) : Except ℕ (Table α) :=
  match p with
  | none => .ok t
  | some p => orExit 1 fails (t.dup2 p fd)

/-- Open the file of a redirection, if there is one, onto `fd`. -/
def redirect (openFails dupFails : Bool) (fd : ℕ) (d : Option (Desc α)) (t : Table α) :
    Except ℕ (Table α) :=
  match d with
  | none => .ok t
  | some d => do
      let (n, t) ← orExit 1 openFails (t.alloc d)
      let t ← orExit 1 dupFails (t.dup2 n fd)
      return t.close n

/-- Child `i` up to its builtin or `execvp`: its descriptors and its words
    there, or the code with which it exits before. -/
def child_setup (fails : ChildCall → Bool) (i nsegs : ℕ) (pipes : List Pipe) (argv : List Word)
    (t : Table α) : Except ℕ (Table α × List Word) := do
  -- the pipes first, so that a redirection overrides them
  let t ← connect (fails .dup2Stdin) 0 (if 0 < i then (pipes[i - 1]?).map Prod.fst else none) t
  let t ← connect (fails .dup2Stdout) 1 (if i + 1 < nsegs then (pipes[i]?).map Prod.snd else none) t
  let (argv, r) ← orExit 2 false (extract_redirs argv)
  let t ← redirect (fails .openIn) (fails .dup2In) 0 (r.in_path.map .inFile) t
  let t ← redirect (fails .openOut) (fails .dup2Out) 1 (r.out_path.map (.outFile · r.append)) t
  let t := close_pipes pipes t
  if argv = [] then .error 2 else .ok (t, argv)

end child

/-! ### The parent -/

/-- A child that has been forked, and how far it gets. -/
structure Child (α : Type) where
  pid : ℕ
  setup : Except ℕ (Table α × List Word)

/-- The return value of `run_pipeline`, the descriptors of the shell at that
    point, the children it forked and its calls of `waitpid`, in order. -/
structure Outcome (α : Type) where
  rc : ℤ
  fds : Table α
  children : List (Child α)
  waited : List ℕ

section parent
variable {α : Type} (env : Env)

/-- Open `n` more pipes, the next one with number `i`; `false` if one fails. -/
def open_pipes : ℕ → ℕ → Table α → List Pipe → Table α × List Pipe × Bool
  | 0, _, t, pipes => (t, pipes, true)
  | n + 1, i, t, pipes =>
      match t.pipe (.readEnd i) (.writeEnd i), env.pipeFails i with
      | some (p, t'), false => open_pipes n (i + 1) t' (pipes ++ [p])
      | _, _ => (t, pipes, false)

/-- Fork a child for each of the segments, the next one with number `i`;
    `false` if a `fork` fails. A child starts with a copy of the descriptors. -/
def fork_children (nsegs : ℕ) (pipes : List Pipe) (t : Table α) :
    List (List Word) → ℕ → List (Child α) → List (Child α) × Bool
  | [], _, cs => (cs, true)
  | argv :: argvs, i, cs =>
      match env.fork i with
      | none => (cs, false)
      | some pid =>
          fork_children nsegs pipes t argvs (i + 1)
            (cs ++ [⟨pid, child_setup (env.childFails i) i nsegs pipes argv t⟩])

/-- The last loop: wait for the processes, the next one with number `i`. -/
def wait_children (nsegs : ℕ) : List ℕ → ℕ → ℤ → List ℕ → ℤ × List ℕ
  | [], _, rc, waited => (rc, waited)
  | pid :: pids, i, rc, waited =>
      let rc := match env.waitpid pid with
        | none => -1
        | some (.exited code) => if i = nsegs - 1 then code else rc
        | some (.signaled sig) => if i = nsegs - 1 then 128 + sig else rc
        | some .other => rc
      wait_children nsegs pids (i + 1) rc (waited ++ [pid])

/-- `run_pipeline` on the path that forks. -/
def run_pipeline (argvs : List (List Word)) (t : Table α) : Outcome α :=
  let nsegs := argvs.length
  let npipes := if nsegs > 1 then nsegs - 1 else 0
  match open_pipes env npipes 0 t [] with
  -- a `pipe` failed: no child yet
  | (t, pipes, false) => ⟨-1, close_pipes pipes t, [], []⟩
  | (t, pipes, true) =>
      match fork_children env nsegs pipes t argvs 0 [] with
      -- a `fork` failed: the children so far are waited for
      | (cs, false) => ⟨-1, close_pipes pipes t, cs, cs.map Child.pid⟩
      | (cs, true) =>
          let (rc, waited) := wait_children env nsegs (cs.map Child.pid) 0 0 []
          ⟨rc, close_pipes pipes t, cs, waited⟩

end parent

end Myshell
