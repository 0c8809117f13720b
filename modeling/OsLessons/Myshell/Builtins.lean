import OsLessons.Myshell.Operators
import OsLessons.Myshell.Wiring

/-! # myshell: builtins

  `exit`, `cd` and `pwd` are there twice: in the parent, for a command that is
  a single segment, and in a child, after its redirections. The parent does not
  look at redirections.
-/

namespace Myshell

open Posix CString

/-! ### The builtins -/

def TILDE : UInt8 := 0x7e
def SLASH : UInt8 := 0x2f

/-- `atoi`: whitespace, a sign, digits. A number that does not fit into an `int`
    is left out: it is undefined there, and is itself here. -/
def atoi (w : Word) : ℤ :=
  let w := w.dropWhile isspace
  let digits (w : Word) : ℤ :=
    (w.takeWhile fun c => 0x30 ≤ c && c ≤ 0x39).foldl (fun n c => 10 * n + (c.toNat - 0x30)) 0
  match w with
  | 0x2d :: w => - digits w
  | 0x2b :: w => digits w
  | w => digits w

/-- `home && *home ? home : "/"` -/
def home_or_root (home : Option Word) : Word :=
  match home with
  | some (c :: home) => c :: home
  | _ => [SLASH]

def expand_tilde (home : Option Word) (arg : Word) : Word :=
  match arg with
  | [c] => if c = TILDE then home_or_root home else arg
  | c :: d :: rest => if c = TILDE ∧ d = SLASH then home_or_root home ++ d :: rest else arg
  | [] => arg

/-- What a builtin does: end with a code, change the directory, or print it. -/
inductive Effect where
  | exit (code : ℤ)
  | cd (path : Word)
  | pwd
  deriving DecidableEq

/-- The branches over `argv[0]`; `none` for a command that is no builtin. -/
def effect (home : Option Word) (argv : List Word) : Option Effect :=
  match argv with
  | [] => none
  | cmd :: args =>
      if cmd = EXIT then some (.exit ((args.head?.map atoi).getD 0))
      else if cmd = CD then
        match args.head? with
        | none => some (.cd (home_or_root home))
        | some raw =>
            if raw.head? = some TILDE then some (.cd (expand_tilde home raw)) else some (.cd raw)
      else if cmd = PWD then some .pwd
      else none

/-- A builtin that runs: what it does, the argument vector it is given, and
    where its standard output goes. -/
structure BuiltinRun (α : Type) where
  effect : Effect
  argv : List Word
  stdout : Option (Desc α)

/-! ### Where they run -/

section run
variable {α : Type} (home : Option Word)

/-- A command with the descriptors `t`, if it is a builtin. -/
def run_builtin (argv : List Word) (t : Table α) : Option (BuiltinRun α) :=
  (effect home argv).map (⟨·, argv, t.slot 1⟩)

/-- The start of `run_pipeline`: `nsegs == 1 && is_builtin(argvs[0][0])`. -/
def parent_builtin (argvs : List (List Word)) (t : Table α) : Option (BuiltinRun α) :=
  match argvs with
  | [cmd :: args] => if is_builtin cmd then run_builtin home (cmd :: args) t else none
  | _ => none

/-- A child behind its redirections: `if (is_builtin(argvs[i][0]))`. -/
def child_builtin (setup : Table α × List Word) : Option (BuiltinRun α) :=
  match setup.2 with
  | cmd :: args => if is_builtin cmd then run_builtin home (cmd :: args) setup.1 else none
  | [] => none

end run

/-! ### The fast path -/

/-- The builtin in the parent runs as it would in a child: with the words that
    `extract_redirs` leaves, and into the file of the last `>` or `>>`. A
    redirection without a file would be reported, so there is none. -/
def FastPathAgrees (home : Option Word) (argv : List Word) : Prop :=
  ∀ shell : FdTable ℕ, shell.slot 0 ≠ none → shell.slot 1 ≠ none →
    ∃ run kept r, parent_builtin home [argv] (shell.map .inherited) = some run ∧
      extract_redirs argv = some (kept, r) ∧ run.argv = kept ∧
      run.stdout = stdoutOf shell.slot 0 1 r ∧
      ∀ fails setup, child_setup fails 0 1 [] argv (shell.map .inherited) = .ok setup →
        ∃ run', child_builtin home setup = some run' ∧ run = run'

theorem effect_of_builtin {cmd : Word} (h : is_builtin cmd) (home : Option Word)
    (args : List Word) : ∃ e, effect home (cmd :: args) = some e := by
  have hcases : cmd = EXIT ∨ cmd = CD ∨ cmd = PWD := by
    simpa [is_builtin, or_assoc] using h
  rcases hcases with rfl | rfl | rfl
  · exact ⟨_, rfl⟩
  · cases args with
    | nil => exact ⟨_, rfl⟩
    | cons raw args =>
      by_cases htilde : raw.head? = some TILDE
      · exact ⟨.cd (expand_tilde home raw), by simp [effect, htilde, CD, EXIT]⟩
      · exact ⟨.cd raw, by simp [effect, htilde, CD, EXIT]⟩
  · exact ⟨_, rfl⟩

/-- The parent gives a builtin all words. -/
theorem parent_builtin_argv {α : Type} {home : Option Word} {cmd : Word} {args : List Word}
    {t : Table α} {run : BuiltinRun α} (h : parent_builtin home [cmd :: args] t = some run) :
    run.argv = cmd :: args := by
  rw [parent_builtin] at h
  split at h
  · obtain ⟨e, -, rfl⟩ := Option.map_eq_some_iff.mp h
    rfl
  · cases h

/-- The parent runs a builtin with all words, and its own standard output. -/
theorem parent_builtin_given {α : Type} {home : Option Word} {argvs : List (List Word)}
    {t : Table α} {run : BuiltinRun α} (h : parent_builtin home argvs t = some run) :
    given argvs = [some (run.argv, {})] ∧ run.stdout = t.slot 1 := by
  unfold parent_builtin at h
  split at h
  · next cmd args =>
    split at h
    · next hcmd =>
      obtain ⟨e, -, rfl⟩ := Option.map_eq_some_iff.mp h
      have hparent : inParent [cmd :: args] = true := hcmd
      exact ⟨by rw [given, if_pos hparent]; rfl, rfl⟩
    · cases h
  · cases h

/-- The fast path agrees with the forked one if and only if there is nothing to
    redirect. -/
theorem fast_path_iff {cmd : Word} (hcmd : is_builtin cmd) (home : Option Word)
    (args : List Word) :
    FastPathAgrees home (cmd :: args) ↔ ∀ w ∈ cmd :: args, ¬ isOperator w := by
  constructor
  · intro h
    obtain ⟨run, kept, r, hrun, hredirs, hargv, -⟩ := h (terminal.map fun _ => 0) (by decide)
      (by decide)
    have hkept := extract_redirs_eq (cmd :: args)
    rw [hredirs] at hkept
    exact arguments_eq_self.mp
      (hkept.symm.trans (hargv.symm.trans (parent_builtin_argv hrun)))
  · intro h shell h₀ h₁
    obtain ⟨e, he⟩ := effect_of_builtin hcmd home args
    have hredirs := extract_redirs_self.mpr h
    obtain ⟨a₀, ha₀⟩ := Option.ne_none_iff_exists'.mp h₀
    obtain ⟨a₁, ha₁⟩ := Option.ne_none_iff_exists'.mp h₁
    refine ⟨⟨e, cmd :: args, (shell.map .inherited).slot 1⟩, cmd :: args, {}, ?_, hredirs, rfl,
      rfl, ?_⟩
    · rw [parent_builtin, if_pos hcmd, run_builtin, he]
      rfl
    · rintro fails ⟨fds, words⟩ hsetup
      obtain ⟨r, hr, -, -, hout, -⟩ :=
        child_setup_ok (opened_nil _) rfl Nat.one_pos ha₀ ha₁ hsetup
      rw [hredirs] at hr
      cases hr
      refine ⟨⟨e, cmd :: args, fds.slot 1⟩, ?_, ?_⟩
      · show (if is_builtin cmd then run_builtin home (cmd :: args) fds else none) = _
        rw [if_pos hcmd, run_builtin, he]
        rfl
      · rw [hout]
        rfl

/-- `cd /` -/
theorem fast_path_cd : FastPathAgrees none [CD, [SLASH]] :=
  (fast_path_iff (show is_builtin CD by decide) none [[SLASH]]).mpr (by decide)

/-- `pwd > f`: the parent gives the builtin three words and prints on its own
    standard output. -/
theorem fast_path_ignores_redirection : ¬ FastPathAgrees none [PWD, GT, [102]] := by
  intro h
  obtain ⟨run, kept, r, hrun, hredirs, hargv, -⟩ := h (terminal.map fun _ => 0) (by decide)
    (by decide)
  have hkept : extract_redirs [PWD, GT, [102]] = some ([PWD], { out_path := some [102] }) := by
    decide
  rw [hkept, Option.some.injEq, Prod.mk.injEq] at hredirs
  rw [parent_builtin_argv hrun, ← hredirs.1] at hargv
  exact absurd hargv (by decide)

end Myshell
