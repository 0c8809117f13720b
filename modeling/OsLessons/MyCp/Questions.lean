import OsLessons.MyCp.IntoDir

/-! # my_cp -i: questions and answers

  One stream of answers for all operands: `confirm_overwrite` takes the next
  line of the standard input, and no more (`read_answer_eq`).
-/

namespace MyCp

open FileSystem

/-! ### Lines -/

/-- The lines of a text; the last one may lack its newline. -/
def lines (s : List UInt8) : List (List UInt8) := s.splitOn NEWLINE

/-- The `k`-th line, empty behind the end. -/
def line (k : ℕ) (s : List UInt8) : List UInt8 := (lines s).getD k []

/-- What is left behind `k` lines. -/
def behind (k : ℕ) (s : List UInt8) : List UInt8 := [NEWLINE].intercalate ((lines s).drop k)

theorem behind_zero (s : List UInt8) : behind 0 s = s := List.intercalate_splitOn NEWLINE

/-- A text is its last line, or a line with a newline and more. -/
theorem lines_cases (s : List UInt8) :
    NEWLINE ∉ s ∧ lines s = [s] ∨
      ∃ l t, s = l ++ NEWLINE :: t ∧ NEWLINE ∉ l ∧ lines s = l :: lines t := by
  by_cases h : NEWLINE ∈ s
  · obtain ⟨l, t, rfl, hl⟩ := List.eq_append_cons_of_mem h
    exact .inr ⟨l, t, rfl, hl, List.splitOn_append_cons_self_of_not_mem hl t⟩
  · exact .inl ⟨h, List.splitOn_eq_singleton h⟩

/-- The other lines are those behind the first. -/
theorem line_succ (k : ℕ) (s : List UInt8) :
    line (k + 1) s = line k (behind 1 s) ∧ behind (k + 1) s = behind k (behind 1 s) := by
  rcases lines_cases s with ⟨-, h⟩ | ⟨l, t, -, -, h⟩
  · have hnil : behind 1 s = [] := by
      rw [behind, h]
      rfl
    rw [hnil, line, line, behind, behind, h]
    cases k <;> simp [lines]
  · have ht : behind 1 s = t := by
      rw [behind, h]
      exact behind_zero t
    rw [ht, line, behind, h]
    exact ⟨rfl, rfl⟩

/-- Behind `k` lines the next line is the `k`-th. -/
theorem line_behind (k : ℕ) (s : List UInt8) :
    line 0 (behind k s) = line k s ∧ behind 1 (behind k s) = behind (k + 1) s := by
  induction k generalizing s with
  | zero => rw [behind_zero]; exact ⟨rfl, rfl⟩
  | succ k ih =>
    rw [(line_succ k s).2, (line_succ k s).1, (line_succ (k + 1) s).2]
    exact ih (behind 1 s)

theorem skip_line_of_not_mem {s : List UInt8} (h : NEWLINE ∉ s) : skip_line s = [] := by
  induction s with
  | nil => rfl
  | cons c s ih =>
    rw [List.mem_cons, not_or] at h
    rw [skip_line, if_neg (Ne.symm h.1), ih h.2]

theorem skip_line_append {l : List UInt8} (h : NEWLINE ∉ l) (t : List UInt8) :
    skip_line (l ++ NEWLINE :: t) = t := by
  induction l with
  | nil => rw [List.nil_append, skip_line, if_pos rfl]
  | cons c l ih =>
    rw [List.mem_cons, not_or] at h
    rw [List.cons_append, skip_line, if_neg (Ne.symm h.1), ih h.2]

/-- `confirm_overwrite` takes one line. -/
theorem read_answer_eq (s : List UInt8) :
    read_answer s = (decide (Consents (line 0 s)), behind 1 s) := by
  rcases lines_cases s with ⟨hs, h⟩ | ⟨l, t, rfl, hl, h⟩
  · rw [line, behind, h]
    cases s with
    | nil => rfl
    | cons c s =>
      rw [List.mem_cons, not_or] at hs
      rw [read_answer, if_pos (Ne.symm hs.1), skip_line_of_not_mem hs.2]
      simp [Consents]
  · rw [line, behind, h]
    have ht : [NEWLINE].intercalate ((l :: lines t).drop 1) = t := behind_zero t
    rw [ht]
    cases l with
    | nil => rfl
    | cons c l =>
      rw [List.mem_cons, not_or] at hl
      rw [List.cons_append, read_answer, if_pos (Ne.symm hl.1), skip_line_append hl.2]
      simp [Consents]

/-! ### One operand -/

/-- The questions among what was printed. -/
def questions (out : List Message) : List Path :=
  out.filterMap fun
    | .question dst => some dst
    | _ => none

/-- Every `open`, `read`, `write` and `close` succeeds. -/
structure Env.Succeeds (env : Env) : Prop where
  openSrc : env.openSrc = none
  openDst : env.openDst = none
  io : ∀ k, ∃ n, env.io k = .ok n
  close : env.close = none

variable {fuel : ℕ} {e : Env} {env : ℕ → Env} {o : Opts} {dest src dst : Path} {srcs : List Path}
  {p q q₁ : Proc} {fs fs' : FS} {i j : Ino}

/-- The question is asked if the target exists, and a line is taken for it. -/
theorem agree_eq (hi : o.i = true) :
    (p.fs.stat dst = none → agree o dst p = (true, p)) ∧
    ((p.fs.stat dst).isSome → ∃ q, agree o dst p = (decide (Consents (line 0 p.stdin)), q) ∧
      q.fs = p.fs ∧ q.stdin = behind 1 p.stdin ∧ questions q.out = questions p.out ++ [dst]) := by
  constructor
  · intro hnone
    rw [agree, hnone, Option.isSome_none, Bool.false_and, if_neg Bool.false_ne_true]
  · intro hsome
    refine ⟨{ p.say (.question dst) with stdin := behind 1 p.stdin }, ?_, rfl, rfl, ?_⟩
    · rw [agree, hsome, hi, Bool.and_self, if_pos rfl, confirm_overwrite, Proc.say_stdin,
        read_answer_eq]
    · rw [Proc.say, questions, List.filterMap_append]
      rfl

/-- The user declines. -/
theorem copy_file_declined (he : e.Succeeds) (hsrc : p.fs.stat src = some i) (hreg : p.fs.isReg i)
    (hdiff : p.fs.stat dst ≠ some i) (hagree : agree o dst p = (false, q)) :
    ∃ r, copy_file fuel e o src dst p = some r ∧ r.rc = 0 ∧ r.proc.fs = q.fs ∧
      r.proc.stdin = q.stdin ∧ questions r.proc.out = questions q.out := by
  have hopen : open_files e o src dst p =
      .error ⟨0, .declined, if o.v then q.say (.skipped dst) else q⟩ := by
    rw [open_files, he.openSrc, orError, FS.open_read_eq_ok.mpr hsrc]
    simp [FS.isDir_of_isReg hreg, hdiff, hagree]
  refine ⟨_, by rw [copy_file, hopen], rfl, ?_⟩
  cases o.v <;> simp [Proc.say, questions]

/-- The user agrees or is not asked: the target is opened and stored to. -/
theorem copy_file_agreed (he : e.Succeeds) (hsrc : p.fs.stat src = some i) (hreg : p.fs.isReg i)
    (hdiff : p.fs.stat dst ≠ some i) (hagree : agree o dst p = (true, q))
    (hopen : p.fs.open_trunc dst = .ok (j, fs')) (hfuel : 2 * (p.fs.data i).length < fuel) :
    ∃ r, copy_file fuel e o src dst p = some r ∧ r.rc = 0 ∧
      r.proc.fs = fs'.setData j (p.fs.data i) ∧ r.proc.stdin = q.stdin ∧
      questions r.proc.out = questions q.out := by
  have hfs : q.fs = p.fs := by
    have h := agree_fs o dst p
    rwa [hagree] at h
  have hfiles : open_files e o src dst p = .ok (.start fs' i j, { q with fs := fs' }) := by
    rw [open_files, he.openSrc, orError, FS.open_read_eq_ok.mpr hsrc]
    have hdst : open_dst e o dst q.fs = .ok (fs', j) := by
      rw [open_dst, he.openDst, orError, hfs, hopen]
    simp [FS.isDir_of_isReg hreg, hdiff, hagree, hdst]
  obtain ⟨-, -, hopened, -, hin, hcopies⟩ := open_files_copies hsrc hreg hfiles
  have hphase : ((Transfer.start fs' i j).steps e.io fuel).phase = .eof := by
    have hdone := steps_done hin (setData_empty hopened) e.io hfuel
    have hok : ¬ ∃ err, Answer.err err ∈ ((Transfer.start fs' i j).steps e.io fuel).answers := by
      rintro ⟨err, herr⟩
      rcases mem_answers e.io herr with hnil | ⟨k, hk⟩
      · cases hnil
      · obtain ⟨n, hn⟩ := he.io k
        rw [hn] at hk
        cases hk
    rw [← (hcopies fuel).failed] at hok
    cases hp : ((Transfer.start fs' i j).steps e.io fuel).phase with
    | copying => exact absurd hp hdone
    | eof => rfl
    | readFailed => exact absurd (.inl hp) hok
    | writeFailed => exact absurd (.inr hp) hok
  have hcopied := (hcopies fuel).complete hphase
  generalize hq' : ({ q with fs := fs'.setData j (p.fs.data i) } : Proc) = q'
  have hrun : copy_file fuel e o src dst p =
      some ⟨0, .copied, if o.v then q'.say (.copied src dst) else q'⟩ := by
    rw [copy_file, hfiles, ← hq']
    simp only [finish, hphase, he.close, hcopied]
    rfl
  refine ⟨_, hrun, rfl, ?_⟩
  cases o.v <;> simp [← hq', Proc.say, questions]

end MyCp
