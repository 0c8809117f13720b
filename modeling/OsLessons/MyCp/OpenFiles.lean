import OsLessons.Lib.Stores
import OsLessons.MyCp.Transfer

/-! # my_cp: opening the files

  - `open_dst_spec`: the destination is opened, by force behind `unlink`.
  - `open_files_ok`: both files are open, and the destination is not the source.
  - `open_files_error`: why there is nothing to copy.
  - `open_files_refused`, `open_files_declined`: when there is nothing to copy.
-/

namespace MyCp

open FileSystem

variable {env : Env} {o : Opts} {src dst : Path} {p : Proc}

theorem orError_eq_ok {α : Type*} {e : Option Errno} {r : Except Errno α} {a : α} :
    orError e r = .ok a ↔ e = none ∧ r = .ok a := by
  cases e <;> simp [orError]

/-! ### The destination -/

/-- The destination cannot be opened, and `-f` removes its name: the entry `n`
    of the directory `d`. -/
structure Removes (env : Env) (o : Opts) (fs : FS) (dst : Path) (d : Ino) (n : Name) : Prop where
  fails : ∃ e, orError env.openDst (fs.open_trunc dst) = .error e ∧ e ≠ .ENOENT
  force : o.f = true
  allowed : env.unlink = none
  place : ∃ i, fs.resolve false dst = .found (some (d, n)) i ∧ fs.isDir i = false

/-- The files when the destination is opened for the last time: as they were, or
    without its name. -/
def Forced (env : Env) (o : Opts) (dst : Path) (fs fs₁ : FS) : Prop :=
  fs₁ = fs ∨ ∃ d n, Removes env o fs dst d n ∧ fs₁ = fs.remove d n

/-- `-f` removes a symbolic link that the path `src` goes by. -/
def LinkLost (env : Env) (o : Opts) (fs : FS) (src dst : Path) (i : Ino) : Prop :=
  fs.EndsAtLink dst ∧ ∃ d n, Removes env o fs dst d n ∧ (fs.remove d n).stat src ≠ some i

theorem force_unlink_forced {fs : FS} {e : Errno}
    (hfails : orError env.openDst (fs.open_trunc dst) = .error e) (hforce : o.f ∧ e ≠ .ENOENT) :
    Forced env o dst fs (force_unlink env dst fs) := by
  unfold force_unlink
  split
  · next hunlink =>
    obtain ⟨hallowed, hunlink⟩ := orError_eq_ok.mp hunlink
    obtain ⟨d, n, _, _, i, hfound, -, -, hdir, rfl⟩ := FS.unlink_ok hunlink
    exact .inr ⟨d, n, ⟨⟨e, hfails, hforce.2⟩, hforce.1, hallowed, i, hfound, hdir⟩, rfl⟩
  · exact .inl rfl

/-- What `open_dst` does to the files. -/
theorem open_dst_spec (env : Env) (o : Opts) (dst : Path) (fs : FS) :
    match open_dst env o dst fs with
    | .ok (fs', j) => ∃ fs₁, Forced env o dst fs fs₁ ∧ fs₁.open_trunc dst = .ok (j, fs')
    | .error fs' => Forced env o dst fs fs' := by
  rw [open_dst]
  cases hopen : orError env.openDst (fs.open_trunc dst) with
  | ok r => exact ⟨fs, .inl rfl, (orError_eq_ok.mp hopen).2⟩
  | error e =>
    by_cases hforce : o.f ∧ e ≠ .ENOENT
    · have hforced := force_unlink_forced hopen hforce
      simp only [if_pos hforce]
      cases hreopen : orError env.reopenDst ((force_unlink env dst fs).open_trunc dst) with
      | ok r => exact ⟨_, hforced, (orError_eq_ok.mp hreopen).2⟩
      | error e => exact hforced
    · simp only [if_neg hforce]
      exact .inl rfl

section forced
variable {fs fs₁ fs' : FS} {i j : Ino}

/-- A removed name changes no file. -/
theorem Forced.node (h : Forced env o dst fs fs₁) (hdir : fs.isDir i = false) :
    fs₁.node i = fs.node i := by
  rcases h with rfl | ⟨d, n, -, rfl⟩
  · rfl
  · exact FS.node_remove_of_not_dir hdir d n

theorem Forced.cleared (h : Forced env o dst fs fs₁) : fs.Cleared dst fs₁ := by
  rcases h with rfl | ⟨d, n, hremoves, rfl⟩
  · exact .kept
  · obtain ⟨i, hfound, -⟩ := hremoves.place
    exact .removed hfound

/-- A path to another file leads there, unless it goes by the link that is removed. -/
theorem Forced.stat (h : Forced env o dst fs fs₁) (hstat : fs.stat src = some i)
    (hdiff : fs.stat dst ≠ some i) : fs₁.stat src = some i ∨ LinkLost env o fs src dst i := by
  rcases h with rfl | ⟨d, n, hremoves, rfl⟩
  · exact .inl hstat
  by_cases hkept : (fs.remove d n).stat src = some i
  · exact .inl hkept
  refine .inr ⟨?_, d, n, hremoves, hkept⟩
  by_contra hlink
  obtain ⟨k, hfound, hdir⟩ := hremoves.place
  exact hkept (FS.stat_unlinked hlink hfound hdir hstat hdiff)

/-- A path to another file leads to no third one, unless it ends at a link that
    is removed. -/
theorem Forced.onlyTo (h : Forced env o dst fs fs₁) (honly : fs.OnlyTo src i)
    (hdiff : fs.stat dst ≠ some i)
    (hend : ∀ d n, Removes env o fs dst d n → fs.EndsAtLink dst →
      (fs.remove d n).resolve true src ≠ .missing d n) : fs₁.OnlyTo src i := by
  rcases h with rfl | ⟨d, n, hremoves, rfl⟩
  · exact honly
  obtain ⟨k, hfound, hdir⟩ := hremoves.place
  obtain ⟨s, e, hd, -⟩ := FS.resolve_entry hfound
  refine honly.removed hd ?_
  by_cases hlink : fs.EndsAtLink dst
  · exact hend d n hremoves hlink
  · exact FS.not_missing_unlinked hlink hfound hdir honly hdiff

/-- The destination is open, empty, and the file it was or a new one. -/
theorem Forced.opened (h : Forced env o dst fs fs₁) (hopen : fs₁.open_trunc dst = .ok (j, fs')) :
    fs.Opened fs' dst j := by
  have hopened := FS.open_trunc_ok hopen
  rcases h with rfl | ⟨d, n, hremoves, rfl⟩
  · exact hopened
  · obtain ⟨i, hfound, hdir⟩ := hremoves.place
    exact hopened.of_removed hfound

/-- Another path leads to the same file, or to the destination, unless it breaks off. -/
theorem Forced.spares (h : Forced env o dst fs fs₁) (hopen : fs₁.open_trunc dst = .ok (j, fs'))
    (hwhole : ∀ d n, Removes env o fs dst d n → fs.EndsAtLink dst → ¬ fs.BreaksOff d n src)
    (hstat : fs.stat src = some i) : fs'.stat src = some i ∨ fs'.stat src = some j := by
  rcases h with rfl | ⟨d, n, hremoves, rfl⟩
  · exact .inl ((FS.open_trunc_entered hopen).stat hstat)
  obtain ⟨k, hfound, hdir⟩ := hremoves.place
  refine FS.stat_reopened hfound hopen hstat ?_
  by_cases hlink : fs.EndsAtLink dst
  · exact hwhole d n hremoves hlink
  · exact FS.not_breaksOff hlink hfound hdir hstat

end forced

theorem open_dst_ok {fs fs' : FS} {j : Ino} (h : open_dst env o dst fs = .ok (fs', j)) :
    ∃ fs₁, Forced env o dst fs fs₁ ∧ fs₁.open_trunc dst = .ok (j, fs') := by
  have hspec := open_dst_spec env o dst fs
  rwa [h] at hspec

/-- If it cannot be opened, it may be gone, but no file has changed. -/
theorem open_dst_error {fs fs' : FS} (h : open_dst env o dst fs = .error fs') :
    Forced env o dst fs fs' := by
  have hspec := open_dst_spec env o dst fs
  rwa [h] at hspec

/-! ### Both files -/

theorem agree_of_not_asking (hi : o.i = false) : agree o dst p = (true, p) := by
  rw [agree, hi, Bool.and_false, if_neg Bool.false_ne_true]

/-- The question does not touch the files. -/
theorem agree_fs (o : Opts) (dst : Path) (p : Proc) : (agree o dst p).2.fs = p.fs := by
  unfold agree
  split <;> rfl

theorem open_files_ok {t : Transfer} {q : Proc} (h : open_files env o src dst p = .ok (t, q)) :
    ∃ i j, p.fs.stat src = some i ∧ p.fs.isDir i = false ∧ t = .start q.fs i j ∧
      open_dst env o dst p.fs = .ok (q.fs, j) ∧ (p.fs.isReg i → p.fs.stat dst ≠ some i) := by
  have hfs := agree_fs o dst p
  unfold open_files at h
  split at h
  · cases h
  next i hopen =>
  split at h
  · cases h
  next hdir =>
  split at h
  · cases h
  next hsame =>
  split at h
  · cases h
  next q₁ hagree =>
  rw [hagree] at hfs
  split at h
  · cases h
  next fs j hopen' =>
  cases h
  rw [hfs] at hopen'
  exact ⟨i, j, FS.open_read_eq_ok.mp (orError_eq_ok.mp hopen).2, by simpa using hdir, rfl,
    hopen', fun hreg hstat => hsame ⟨hreg, hstat⟩⟩

/-- Without anything to copy no file has changed; and only a destination that
    cannot be opened may have lost its name. -/
theorem open_files_error {r : Result} (h : open_files env o src dst p = .error r) :
    Forced env o dst p.fs r.proc.fs ∧
      match r.ending with
      | .srcFailed | .directory | .same => r.rc = -1 ∧ r.proc.fs = p.fs
      | .declined => r.rc = 0 ∧ r.proc.fs = p.fs
      | .dstFailed => r.rc = -1 ∧
          ∀ i, p.fs.stat src = some i → p.fs.isReg i → p.fs.stat dst ≠ some i
      | _ => False := by
  have hfs := agree_fs o dst p
  unfold open_files at h
  split at h
  · cases h
    exact ⟨.inl rfl, rfl, rfl⟩
  next i hopen =>
  split at h
  · cases h
    exact ⟨.inl rfl, rfl, rfl⟩
  split at h
  · cases h
    exact ⟨.inl rfl, rfl, rfl⟩
  next hsame =>
  split at h
  · next q₁ hagree =>
    rw [hagree] at hfs
    cases h
    have hproc : (if o.v then q₁.say (.skipped dst) else q₁).fs = p.fs := by
      split <;> exact hfs
    exact ⟨.inl hproc, rfl, hproc⟩
  · next q₁ hagree =>
    rw [hagree] at hfs
    split at h
    · next fs hdst =>
      cases h
      rw [hfs] at hdst
      refine ⟨open_dst_error hdst, rfl, fun k hk hreg hstat => ?_⟩
      have hsrc := FS.open_read_eq_ok.mp (orError_eq_ok.mp hopen).2
      obtain rfl : i = k := Option.some.inj (hsrc.symm.trans hk)
      exact hsame ⟨hreg, hstat⟩
    · cases h

/-! ### Refused -/

/-- The source cannot be opened, is a directory, or is the destination. -/
def Refused (env : Env) (src dst : Path) (fs : FS) : Prop :=
  env.openSrc ≠ none ∨ fs.stat src = none ∨
    ∃ i, fs.stat src = some i ∧ (fs.isDir i ∨ fs.isReg i ∧ fs.stat dst = some i)

/-- The answer starts with `y` or `Y`. -/
def Consents (answer : List UInt8) : Prop := answer.head? = some 0x79 ∨ answer.head? = some 0x59

instance (answer : List UInt8) : Decidable (Consents answer) := inferInstanceAs (Decidable (_ ∨ _))

theorem read_answer_fst (s : List UInt8) : (read_answer s).1 = decide (Consents s) := by
  cases s <;> simp [read_answer, Consents]

theorem open_files_refused (h : Refused env src dst p.fs) :
    ∃ r, open_files env o src dst p = .error r ∧ r.rc = -1 ∧ r.proc.fs = p.fs := by
  unfold open_files
  split
  · exact ⟨_, rfl, rfl, rfl⟩
  next i hopen =>
  obtain ⟨hnone, hread⟩ := orError_eq_ok.mp hopen
  have hsrc := FS.open_read_eq_ok.mp hread
  split
  · exact ⟨_, rfl, rfl, rfl⟩
  next hdir =>
  split
  · exact ⟨_, rfl, rfl, rfl⟩
  next hsame =>
  -- none of the three
  rcases h with h | h | ⟨k, hk, h⟩
  · exact absurd hnone h
  · rw [hsrc] at h
    cases h
  · obtain rfl : i = k := Option.some.inj (hsrc.symm.trans hk)
    rcases h with h | h
    · exact absurd h hdir
    · exact absurd h hsame

/-- The question is answered with no. -/
theorem open_files_declined (h : ¬ Refused env src dst p.fs) (hi : o.i = true)
    (hdst : (p.fs.stat dst).isSome) (hno : ¬ Consents p.stdin) :
    ∃ r, open_files env o src dst p = .error r ∧ r.rc = 0 ∧ r.proc.fs = p.fs := by
  rw [Refused, not_or, not_or, not_ne_iff, ← ne_eq, Option.ne_none_iff_exists'] at h
  obtain ⟨hnone, ⟨i, hsrc⟩, hfile⟩ := h
  have hopen : orError env.openSrc (p.fs.open_read src) = .ok i :=
    orError_eq_ok.mpr ⟨hnone, FS.open_read_eq_ok.mpr hsrc⟩
  have hdir : ¬ p.fs.isDir i := fun hdir => hfile ⟨i, hsrc, .inl hdir⟩
  have hsame : ¬ (p.fs.isReg i ∧ p.fs.stat dst = some i) := fun hsame =>
    hfile ⟨i, hsrc, .inr hsame⟩
  have hagree : agree o dst p = (false, (confirm_overwrite dst p).2) := by
    rw [agree, hdst, hi, Bool.and_self, if_pos rfl]
    refine Prod.ext ?_ rfl
    show (read_answer p.stdin).1 = false
    rw [read_answer_fst, decide_eq_false hno]
  refine ⟨_, by simp only [open_files, hopen, if_neg hdir, if_neg hsame, hagree]; rfl, rfl, ?_⟩
  cases o.v <;> rfl

/-- Without `-i` nobody declines. -/
theorem open_files_not_declined (hi : o.i = false) {r : Result}
    (h : open_files env o src dst p = .error r) : r.ending ≠ .declined := by
  unfold open_files at h
  rw [agree_of_not_asking hi] at h
  intro hend
  split at h
  · cases h
    cases hend
  split at h
  · cases h
    cases hend
  split at h
  · cases h
    cases hend
  split at h
  · next heq => cases heq
  · split at h
    · cases h
      cases hend
    · cases h

end MyCp
