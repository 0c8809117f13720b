import OsLessons.MyCp.CopyFile

/-! # my_cp: the operands

  `my_cp` is `main` behind the options, `copy_into` its loop over `SRC... DIR`.
  A target is named by `filename_of` and `join_path`, both with buffers of
  `PATH_MAX` bytes.
-/

namespace MyCp

open FileSystem

/-! ### Names -/

/-- POSIX `basename` -/
def basename (path : Path) : Path :=
  let trimmed := path.rdropWhile (· = SLASH)
  if path = [] then [0x2e]
  else if trimmed = [] then [SLASH]
  else trimmed.rtakeWhile (· ≠ SLASH)

/-- `strncpy` into a buffer of `cap` bytes, and `basename` -/
def filename_of (path : Path) (cap : ℕ) : Path := basename (path.take (cap - 1))

def join (dir name : Path) : Path :=
  if dir.getLast? = some SLASH then dir ++ name else dir ++ SLASH :: name

/-- `snprintf` cuts what does not fit. -/
def join_path (outsz : ℕ) (dir name : Path) : Path := (join dir name).take (outsz - 1)

/-- The target of an operand, as `main` finds it. -/
def target (dest src : Path) : Path := join_path PATH_MAX dest (filename_of src PATH_MAX)

/-! ### `main` -/

/-- `copy_file(..) ? 1 : 0` -/
def Result.status (r : Result) : ℕ := if r.rc ≠ 0 then 1 else 0

/-- The loop over `SRC... DIR`, which stops at the first copy that fails. The
    `k`-th operand finds the environment `env k`. -/
def copy_into (fuel : ℕ) (env : ℕ → Env) (o : Opts) (dest : Path) :
    List Path → Proc → Option (ℕ × Proc)
  | [], p => some (0, p)
  | src :: srcs, p =>
      match copy_file fuel (env 0) o src (target dest src) p with
      | none => none
      | some r =>
          if r.rc ≠ 0 then some (1, r.proc)
          else copy_into fuel (fun k => env (k + 1)) o dest srcs r.proc

/-- The exit status. -/
def my_cp (fuel : ℕ) (env : ℕ → Env) (o : Opts) (args : List Path) (p : Proc) :
    Option (ℕ × Proc) :=
  let dest := args.getLastD []
  let dest_is_dir := (p.fs.stat dest).any p.fs.isDir
  if args.length < 2 then some (1, p.say .usage)
  else if args.length = 2 ∧ dest_is_dir = false then
    (copy_file fuel (env 0) o (args.headD []) dest p).map fun r => (r.status, r.proc)
  else if dest_is_dir = false then some (1, p.say (.notDirectory dest))
  else copy_into fuel env o dest args.dropLast p

/-! ### Rules -/

variable {fuel : ℕ} {env : ℕ → Env} {o : Opts} {dest src : Path} {srcs : List Path} {p q : Proc}

/-- A name that resolves has room in the buffer; so has the joined one, if it is not cut. -/
theorem target_eq {i : Ino} (hsrc : p.fs.stat src = some i)
    (hcut : (join dest (basename src)).length < PATH_MAX) :
    target dest src = join dest (basename src) := by
  have hlength : src.length ≤ PATH_MAX - 1 := by
    obtain ⟨l, hfound⟩ := FS.stat_eq_some.mp hsrc
    by_contra hlong
    unfold FS.resolve at hfound
    split at hfound
    · cases hfound
    · rw [if_pos (by unfold PATH_MAX at hlong ⊢; omega)] at hfound
      cases hfound
  rw [target, filename_of, List.take_of_length_le hlength, join_path,
    List.take_of_length_le (Nat.le_sub_one_of_lt hcut)]

theorem my_cp_into {d : Ino} (hsome : srcs ≠ []) (hdest : p.fs.stat dest = some d)
    (hdir : p.fs.isDir d) :
    my_cp fuel env o (srcs ++ [dest]) p = copy_into fuel env o dest srcs p := by
  simp [my_cp, hdest, hdir, hsome]

/-- One operand more. -/
theorem copy_into_append (srcs : List Path) :
    copy_into fuel env o dest (srcs ++ [src]) p =
      (copy_into fuel env o dest srcs p).bind fun (status, q) =>
        if status = 0 then
          (copy_file fuel (env srcs.length) o src (target dest src) q).map
            fun r => (r.status, r.proc)
        else some (status, q) := by
  induction srcs generalizing env p with
  | nil =>
    simp only [List.nil_append, copy_into, Option.bind_some, if_true, List.length_nil]
    cases copy_file fuel (env 0) o src (target dest src) p with
    | none => rfl
    | some r =>
      by_cases hrc : r.rc = 0 <;> simp [Result.status, hrc]
  | cons s srcs ih =>
    simp only [List.cons_append, copy_into, List.length_cons]
    cases copy_file fuel (env 0) o s (target dest s) p with
    | none => rfl
    | some r =>
      simp only
      split
      · rfl
      · exact ih

/-- All copies have been made, and so has the last one. -/
theorem copy_into_append_zero (h : copy_into fuel env o dest (srcs ++ [src]) p = some (0, q)) :
    ∃ q₁ r, copy_into fuel env o dest srcs p = some (0, q₁) ∧
      copy_file fuel (env srcs.length) o src (target dest src) q₁ = some r ∧ r.rc = 0 ∧
      r.proc = q := by
  rw [copy_into_append] at h
  obtain ⟨⟨status, q₁⟩, hinit, hlast⟩ := Option.bind_eq_some_iff.mp h
  simp only at hlast
  split at hlast
  · next hzero =>
    obtain ⟨r, hr, heq⟩ := Option.map_eq_some_iff.mp hlast
    rw [Prod.mk.injEq, Result.status] at heq
    refine ⟨q₁, r, hzero ▸ hinit, hr, ?_, heq.2⟩
    by_contra hne
    rw [if_pos hne] at heq
    cases heq.1
  · next hne =>
    cases hlast
    exact absurd rfl hne

end MyCp
