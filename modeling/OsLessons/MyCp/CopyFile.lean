import OsLessons.MyCp.OpenFiles

/-! # my_cp: what `copy_file` returns

  - `source_undamaged`: the source keeps its content, and a copy that is
    refused or declined changes nothing.
  - `copy_complete`: a copy that is reported is complete.
  - `copied_iff_not_interrupted`: with interruptions, only an uninterrupted
    copy is one.
-/

namespace MyCp

open FileSystem

variable {fuel : ℕ} {env : Env} {o : Opts} {src dst : Path} {p q : Proc} {t : Transfer} {i j : Ino}

/-! ### Both files are open -/

/-- The destination is not the source. -/
theorem out_ne_in (hreg : p.fs.isReg i) (hopened : p.fs.Opened q.fs dst j)
    (hdiff : p.fs.stat dst ≠ some i) : i ≠ j := by
  rintro rfl
  rcases hopened.origin with ⟨hstat, -, -⟩ | ⟨hnew, -⟩
  · exact hdiff hstat
  · exact absurd (FS.lt_next_of_isReg hreg) (hnew ▸ lt_irrefl _)

/-- What is written does not reach the source. -/
theorem node_in (hreg : p.fs.isReg i) (hopened : p.fs.Opened q.fs dst j) (hne : i ≠ j)
    (x : List UInt8) : (q.fs.setData j x).node i = p.fs.node i := by
  rw [FS.node_setData_ne hne,
    hopened.keeps i hne (FS.isDir_of_isReg hreg)]

theorem setData_empty (hopened : p.fs.Opened q.fs dst j) : q.fs.setData j [] = q.fs := by
  cases hreg : q.fs.isReg j with
  | false => exact FS.setData_of_not_reg hreg
  | true =>
    have hnode := hopened.empty hreg
    ext1
    · rw [FS.setData_of_reg hnode, ← hnode, Function.update_eq_self]
    all_goals simp

/-- The copy of a regular file. -/
theorem open_files_copies (hsrc : p.fs.stat src = some i) (hreg : p.fs.isReg i)
    (hopen : open_files env o src dst p = .ok (t, q)) :
    t = .start q.fs i t.out_fd ∧ open_dst env o dst p.fs = .ok (q.fs, t.out_fd) ∧
      p.fs.Opened q.fs dst t.out_fd ∧ i ≠ t.out_fd ∧
      (∀ x, (q.fs.setData t.out_fd x).data i = p.fs.data i) ∧
      ∀ n, Copies q.fs i t.out_fd (p.fs.data i) (t.steps env.io n) := by
  obtain ⟨i', j, hsrc', -, rfl, hdst, hdiff⟩ := open_files_ok hopen
  obtain ⟨fs₁, hforced, hopen'⟩ := open_dst_ok hdst
  have hopened := hforced.opened hopen'
  obtain rfl : i' = i := Option.some.inj (hsrc'.symm.trans hsrc)
  have hne := out_ne_in hreg hopened (hdiff hreg)
  have hin : ∀ x, (q.fs.setData j x).data i' = p.fs.data i' := fun x =>
    FS.data_congr (node_in hreg hopened hne x)
  exact ⟨rfl, hdst, hopened, hne, hin, (Copies.start (setData_empty hopened)).steps hin env.io⟩

/-- How a copy ends: the files then, and the code. -/
theorem finish_eq {r : Result} (h : finish env o src dst t q = some r) :
    r.proc.fs = t.fs ∧ t.phase ≠ .copying ∧ (r.rc = 0 ∨ r.rc = -1) ∧
      (r.rc = 0 ↔ t.phase = .eof ∧ env.close = none) ∧
      (r.ending = .readFailed ∨ r.ending = .writeFailed ∨ r.ending = .closeFailed ∨
        r.ending = .copied) := by
  unfold finish at h
  cases hphase : t.phase with
  | copying => simp [hphase] at h
  | readFailed =>
    simp only [hphase] at h
    cases h
    simp
  | writeFailed =>
    simp only [hphase] at h
    cases h
    simp
  | eof =>
    simp only [hphase] at h
    cases hclose : env.close with
    | some e =>
      simp only [hclose] at h
      cases h
      simp
    | none =>
      simp only [hclose] at h
      cases h
      refine ⟨?_, by simp⟩
      show (if o.v then _ else _ : Proc).fs = _
      split <;> rfl

theorem finish_some (h : t.phase ≠ .copying) : ∃ r, finish env o src dst t q = some r := by
  unfold finish
  cases hphase : t.phase with
  | copying => exact absurd hphase h
  | readFailed => exact ⟨_, rfl⟩
  | writeFailed => exact ⟨_, rfl⟩
  | eof => cases env.close <;> exact ⟨_, rfl⟩

/-- A regular file is copied to an end. -/
theorem copy_file_some (hsrc : p.fs.stat src = some i) (hreg : p.fs.isReg i)
    (hfuel : 2 * (p.fs.data i).length < fuel) : ∃ r, copy_file fuel env o src dst p = some r := by
  unfold copy_file
  cases hopen : open_files env o src dst p with
  | error r => exact ⟨r, rfl⟩
  | ok tq =>
    obtain ⟨t, q⟩ := tq
    obtain ⟨ht, -, hopened, -, hin, -⟩ := open_files_copies hsrc hreg hopen
    refine finish_some ?_
    rw [ht]
    exact steps_done hin (setData_empty hopened) env.io hfuel

/-! ### The source and refused copies -/

/-- A path that leads to the source leads there when both files are open. -/
theorem open_files_stat (hsrc : p.fs.stat src = some i) (hreg : p.fs.isReg i)
    (hopen : open_files env o src dst p = .ok (t, q)) :
    q.fs.stat src = some i ∨ LinkLost env o p.fs src dst i := by
  obtain ⟨i', j, hsrc', -, -, hdst, hdiff⟩ := open_files_ok hopen
  obtain rfl : i' = i := Option.some.inj (hsrc'.symm.trans hsrc)
  obtain ⟨fs₁, hforced, hopen'⟩ := open_dst_ok hdst
  exact (hforced.stat hsrc (hdiff hreg)).imp_left (FS.open_trunc_entered hopen').stat

/-- While it is copied, the source is as it was. -/
theorem steps_source (hsrc : p.fs.stat src = some i) (hreg : p.fs.isReg i)
    (hopen : open_files env o src dst p = .ok (t, q)) (n : ℕ) :
    (t.steps env.io n).fs.node i = p.fs.node i ∧
      ((t.steps env.io n).fs.stat src = some i ∨ LinkLost env o p.fs src dst i) := by
  obtain ⟨-, -, hopened, hne, -, hcopies⟩ := open_files_copies hsrc hreg hopen
  rw [(hcopies n).fs]
  refine ⟨node_in hreg hopened hne _, ?_⟩
  rw [FS.stat, FS.resolve_setData]
  exact open_files_stat hsrc hreg hopen

theorem copy_file_source (hsrc : p.fs.stat src = some i) (hreg : p.fs.isReg i) {r : Result}
    (hr : copy_file fuel env o src dst p = some r) : r.proc.fs.node i = p.fs.node i ∧
      (r.proc.fs.stat src = some i ∨ LinkLost env o p.fs src dst i) := by
  unfold copy_file at hr
  cases hopen : open_files env o src dst p with
  | error r' =>
    rw [hopen] at hr
    cases hr
    obtain ⟨hforced, hend⟩ := open_files_error hopen
    refine ⟨hforced.node (FS.isDir_of_isReg hreg), ?_⟩
    have hsame : r.proc.fs = p.fs → r.proc.fs.stat src = some i ∨ LinkLost env o p.fs src dst i :=
      fun hfs => .inl (hfs ▸ hsrc)
    -- only a destination that cannot be opened is removed, and it is not the source
    split at hend
    · exact hsame hend.2
    · exact hsame hend.2
    · exact hsame hend.2
    · exact hsame hend.2
    · exact hforced.stat hsrc (hend.2 i hsrc hreg)
    · exact hend.elim
  | ok tq =>
    obtain ⟨t, q⟩ := tq
    rw [hopen] at hr
    rw [(finish_eq hr).1]
    exact steps_source hsrc hreg hopen fuel

theorem copy_file_refused (h : Refused env src dst p.fs) :
    ∃ r, copy_file fuel env o src dst p = some r ∧ r.rc = -1 ∧ r.proc.fs = p.fs := by
  obtain ⟨r, hopen, hrc, hfs⟩ : ∃ r, open_files env o src dst p = .error r ∧ r.rc = -1 ∧
    r.proc.fs = p.fs := open_files_refused h
  exact ⟨r, by rw [copy_file, hopen], hrc, hfs⟩

/-- A regular source has the same content after `copy_file`, and while it runs;
    and its path leads to it, unless `-f` has removed a link that the path goes
    by. If the source cannot be opened, is a directory or is the destination, or
    if the user does not agree, no file system changes at all. -/
theorem source_undamaged (fuel : ℕ) (env : Env) (o : Opts) (src dst : Path) (p : Proc) :
    (∀ i, p.fs.stat src = some i → p.fs.isReg i →
      (∀ n t q, open_files env o src dst p = .ok (t, q) →
        (t.steps env.io n).fs.node i = p.fs.node i ∧
          ((t.steps env.io n).fs.stat src = some i ∨ LinkLost env o p.fs src dst i)) ∧
      (2 * (p.fs.data i).length < fuel → ∃ r, copy_file fuel env o src dst p = some r) ∧
      ∀ r, copy_file fuel env o src dst p = some r → r.proc.fs.node i = p.fs.node i ∧
        (r.proc.fs.stat src = some i ∨ LinkLost env o p.fs src dst i)) ∧
    (Refused env src dst p.fs →
      ∃ r, copy_file fuel env o src dst p = some r ∧ r.rc = -1 ∧ r.proc.fs = p.fs) ∧
    (¬ Refused env src dst p.fs → o.i = true → (p.fs.stat dst).isSome → ¬ Consents p.stdin →
      ∃ r, copy_file fuel env o src dst p = some r ∧ r.rc = 0 ∧ r.proc.fs = p.fs) := by
  refine ⟨fun i hsrc hreg => ⟨fun n t q hopen => steps_source hsrc hreg hopen n,
    copy_file_some hsrc hreg, fun r hr => copy_file_source hsrc hreg hr⟩, copy_file_refused,
    fun hopened hi hdst hno => ?_⟩
  obtain ⟨r, hopen, hrc, hfs⟩ := open_files_declined hopened hi hdst hno
  exact ⟨r, by rw [copy_file, hopen], hrc, hfs⟩

/-! ### A complete copy -/

/-- A destination that is no device is a regular file when it is open. -/
theorem out_isReg (hopened : p.fs.Opened q.fs dst j)
    (hdst : ∀ k, p.fs.stat dst = some k → p.fs.isReg k ∨ p.fs.isDir k) : q.fs.isReg j := by
  rcases hopened.origin with ⟨hstat, hdir, hreg⟩ | ⟨-, hreg⟩
  · rcases hdst j hstat with h | h
    · rw [hreg, h]
    · rw [hdir] at h
      cases h
  · exact hreg

/-- During the copy the destination is reached by its name and holds what has
    been written. -/
theorem Copies.out_node (hopened : p.fs.Opened q.fs dst j) (hreg : q.fs.isReg j)
    {data : List UInt8} (h : Copies q.fs i j data t) :
    t.fs.stat dst = some j ∧ t.fs.node j = .reg (data.take t.out_pos) := by
  rw [h.fs]
  refine ⟨?_, FS.node_setData_of_isReg hreg _⟩
  rw [FS.stat, FS.resolve_setData]
  exact hopened.stat

/-- The source is a regular file, the destination another one, or none. If 0 is
    returned and the user did not decline, the destination has the content of
    the source; an error of `read`, `write` or `close` makes it -1; and at any
    time the destination is a prefix of the source. -/
theorem copy_complete (fuel : ℕ) (env : Env) (o : Opts) (src dst : Path) (p : Proc) (i : Ino)
    (hsrc : p.fs.stat src = some i) (hreg : p.fs.isReg i)
    (hdst : ∀ k, p.fs.stat dst = some k → p.fs.isReg k ∨ p.fs.isDir k)
    (hfuel : 2 * (p.fs.data i).length < fuel) :
    ∃ r, copy_file fuel env o src dst p = some r ∧
      (r.rc = 0 → r.ending ≠ .declined →
        ∃ j, r.proc.fs.stat dst = some j ∧ r.proc.fs.node j = .reg (p.fs.data i)) ∧
      ∀ t q, open_files env o src dst p = .ok (t, q) →
        ((∃ e, Answer.err e ∈ (t.steps env.io fuel).answers) ∨ env.close ≠ none → r.rc = -1) ∧
        ∀ n, (t.steps env.io n).fs.stat dst = some t.out_fd ∧
          ∃ k, (t.steps env.io n).fs.node t.out_fd = .reg ((p.fs.data i).take k) := by
  obtain ⟨r, hr⟩ := copy_file_some hsrc hreg hfuel
  refine ⟨r, hr, ?_⟩
  unfold copy_file at hr
  cases hopen : open_files env o src dst p with
  | error r' =>
    rw [hopen] at hr
    cases hr
    refine ⟨fun hrc hend => ?_, fun t q h => by cases h⟩
    -- without a copy, 0 is returned only if the user declined
    have herror := (open_files_error hopen).2
    cases hending : r.ending <;> simp_all
  | ok tq =>
    obtain ⟨t, q⟩ := tq
    rw [hopen] at hr
    obtain ⟨-, -, hopened, -, -, hcopies⟩ := open_files_copies hsrc hreg hopen
    have hout := out_isReg hopened hdst
    obtain ⟨hfs, hdone, hcodes, hzero, -⟩ := finish_eq hr
    refine ⟨fun hrc _ => ?_, fun t' q' h => ?_⟩
    · obtain ⟨hphase, -⟩ := hzero.mp hrc
      obtain ⟨hstat, hnode⟩ := (hcopies fuel).out_node hopened hout
      rw [(hcopies fuel).eof hphase, List.take_length] at hnode
      exact ⟨t.out_fd, by rw [hfs, hstat], by rw [hfs, hnode]⟩
    · cases h
      refine ⟨fun hfail => ?_, fun n => ?_⟩
      · refine hcodes.resolve_left fun hrc => ?_
        obtain ⟨hphase, hclose⟩ := hzero.mp hrc
        rcases hfail with herr | hclose'
        · have hfailed := (hcopies fuel).failed.mpr herr
          simp [hphase] at hfailed
        · exact hclose' hclose
      · obtain ⟨hstat, hnode⟩ := (hcopies n).out_node hopened hout
        exact ⟨hstat, _, hnode⟩

/-! ### A copy as a store -/

theorem finish_zero (hsrc : p.fs.stat src = some i) (hreg : p.fs.isReg i)
    (hopen : open_files env o src dst p = .ok (t, q)) {r : Result}
    (hr : finish env o src dst (t.steps env.io fuel) q = some r) (hrc : r.rc = 0) :
    r.proc.fs = q.fs.setData t.out_fd (p.fs.data i) := by
  obtain ⟨-, -, -, -, -, hcopies⟩ := open_files_copies hsrc hreg hopen
  obtain ⟨hfs, -, -, hzero, -⟩ := finish_eq hr
  rw [hfs, (hcopies fuel).complete (hzero.mp hrc).1]

theorem stored_of_opened {fs fs' : FS} {data : List UInt8} (hopened : fs.Opened fs' dst j)
    (hnames : fs.Entered fs' dst j) : fs.Stored (fs'.setData j data) dst j data where
  names := hnames.setData
  stat := by
    rw [FS.stat, FS.resolve_setData]
    exact hopened.stat
  not_dir := by rw [hnames.setData.isDir, ← hnames.isDir, hopened.not_dir]
  content hreg := FS.node_setData_of_isReg (FS.isReg_setData.symm.trans hreg) data
  keeps k hk hdir := by rw [FS.node_setData_ne hk, hopened.keeps k hk hdir]
  regular k hreg := by
    rw [FS.isReg_setData]
    rcases eq_or_ne k j with rfl | hk
    · rcases hopened.origin with ⟨-, -, hsame⟩ | ⟨-, hnew⟩
      · rw [hsame, hreg]
      · exact hnew
    · rw [FS.isReg_congr (hopened.keeps k hk (FS.isDir_of_isReg hreg)), hreg]

/-- A copy that is made has stored the content of the source, maybe where a name
    has been removed. -/
theorem copy_file_stored (hsrc : p.fs.stat src = some i) (hreg : p.fs.isReg i) {r : Result}
    (hr : copy_file fuel env o src dst p = some r) (hrc : r.rc = 0) (hend : r.ending ≠ .declined) :
    ∃ fs₁ fs₂ j, Forced env o dst p.fs fs₁ ∧ fs₁.open_trunc dst = .ok (j, fs₂) ∧
      r.proc.fs = fs₂.setData j (p.fs.data i) := by
  unfold copy_file at hr
  cases hopen : open_files env o src dst p with
  | error r' =>
    rw [hopen] at hr
    cases hr
    have herror := (open_files_error hopen).2
    cases hending : r.ending <;> simp_all
  | ok tq =>
    obtain ⟨t, q⟩ := tq
    rw [hopen] at hr
    obtain ⟨-, hdst, -⟩ := open_files_copies hsrc hreg hopen
    obtain ⟨fs₁, hforced, hopen'⟩ := open_dst_ok hdst
    exact ⟨fs₁, q.fs, t.out_fd, hforced, hopen', finish_zero hsrc hreg hopen hr hrc⟩

/-- Without `-i` nobody declines. -/
theorem not_declined (hi : o.i = false) {r : Result}
    (hr : copy_file fuel env o src dst p = some r) : r.ending ≠ .declined := by
  intro hend
  unfold copy_file at hr
  split at hr
  · next r' hopen =>
    cases hr
    exact open_files_not_declined hi hopen hend
  · have hending := (finish_eq hr).2.2.2.2
    simp [hend] at hending

/-! ### Interruptions -/

/-- The number of calls of `read` and `write`: the loops are at work before, and
    not behind. -/
def Transfer.Calls (io : ℕ → Answer) (t : Transfer) (n : ℕ) : Prop :=
  (t.steps io n).phase ≠ .copying ∧ ∀ k < n, (t.steps io k).phase = .copying

/-- Both files are open, and nothing fails but that calls of `read` and `write`
    are interrupted: the copy is made if and only if none is. -/
theorem copied_iff_not_interrupted (fuel : ℕ) (env : Env) (o : Opts) (src dst : Path)
    (p q : Proc) (t : Transfer) (i : Ino) (hsrc : p.fs.stat src = some i) (hreg : p.fs.isReg i)
    (hdst : ∀ k, p.fs.stat dst = some k → p.fs.isReg k)
    (hopen : open_files env o src dst p = .ok (t, q)) (hclose : env.close = none)
    (hio : ∀ k e, env.io k = .err e → e = .EINTR) (hfuel : 2 * (p.fs.data i).length < fuel) :
    ∃ r n, copy_file fuel env o src dst p = some r ∧ t.Calls env.io n ∧
      (r.rc = 0 ∧ (∃ j, r.proc.fs.stat dst = some j ∧ r.proc.fs.node j = .reg (p.fs.data i)) ↔
        ∀ k < n, env.io k ≠ .err .EINTR) := by
  obtain ⟨ht, -, hopened, -, hin, hcopies⟩ := open_files_copies hsrc hreg hopen
  have hout := out_isReg hopened fun k hk => .inl (hdst k hk)
  have hdone : ∃ n, (t.steps env.io n).phase ≠ .copying := by
    rw [ht]
    exact ⟨_, steps_done hin (setData_empty hopened) env.io (Nat.lt_succ_self _)⟩
  -- the calls up to the first state in which the loops have ended
  classical
  have hcalls : t.Calls env.io (Nat.find hdone) :=
    ⟨Nat.find_spec hdone, fun k hk => not_not.mp (Nat.find_min hdone hk)⟩
  generalize Nat.find hdone = n at hcalls
  have hsteps : t.steps env.io fuel = t.steps env.io n := by
    refine steps_of_done env.io hcalls.1 (not_lt.mp fun hlt => ?_)
    have hphase := hcalls.2 fuel hlt
    rw [ht] at hphase
    exact steps_done hin (setData_empty hopened) env.io hfuel hphase
  have hanswers : (t.steps env.io n).answers = (List.range n).map env.io := by
    rw [answers_steps env.io hcalls.2, ht]
    rfl
  obtain ⟨r, hr⟩ := copy_file_some hsrc hreg hfuel
  refine ⟨r, n, hr, hcalls, ?_⟩
  rw [copy_file, hopen] at hr
  obtain ⟨hfs, -, -, hzero, -⟩ := finish_eq hr
  rw [hsteps] at hfs hzero
  have hfailed := (hcopies n).failed
  have herr : (∃ e, Answer.err e ∈ (t.steps env.io n).answers) ↔
      ∃ k < n, env.io k = .err .EINTR := by
    rw [hanswers]
    constructor
    · rintro ⟨e, he⟩
      obtain ⟨k, hk, hke⟩ := List.mem_map.mp he
      obtain rfl := hio k e hke
      exact ⟨k, List.mem_range.mp hk, hke⟩
    · rintro ⟨k, hk, hke⟩
      exact ⟨.EINTR, List.mem_map.mpr ⟨k, List.mem_range.mpr hk, hke⟩⟩
  constructor
  · rintro ⟨hrc, -⟩ k hk hke
    have hphase := hfailed.mpr (herr.mpr ⟨k, hk, hke⟩)
    simp [(hzero.mp hrc).1] at hphase
  · intro hnone
    have hphase : (t.steps env.io n).phase = .eof := by
      have hok : ¬ ((t.steps env.io n).phase = .readFailed ∨
          (t.steps env.io n).phase = .writeFailed) := fun h => by
        obtain ⟨k, hk, hke⟩ := herr.mp (hfailed.mp h)
        exact hnone k hk hke
      cases hp : (t.steps env.io n).phase with
      | copying => exact absurd hp hcalls.1
      | eof => rfl
      | readFailed => exact absurd (.inl hp) hok
      | writeFailed => exact absurd (.inr hp) hok
    obtain ⟨hstat, hnode⟩ := (hcopies n).out_node hopened hout
    rw [(hcopies n).eof hphase, List.take_length] at hnode
    exact ⟨hzero.mpr ⟨hphase, hclose⟩, t.out_fd, by rw [hfs, hstat], by rw [hfs, hnode]⟩

/-! ### Two small runs -/

/-- The files `a`, with two bytes, and `b`, with one. -/
def twoFiles : FS :=
  .ofPlans [.folder [([0x61], 1), ([0x62], 2)], .file [7, 8], .file [9]]

/-- Nothing fails; a call transfers one byte. -/
def calm : Env := ⟨none, none, none, none, fun _ => .ok 0, none⟩

/-- The first `read` is interrupted. -/
def interrupted : Env := { calm with io := fun k => if k = 0 then .err .EINTR else .ok 0 }

def plain : Opts := ⟨false, false, false⟩

theorem copy_complete_small :
    ∃ r, copy_file 5 calm plain [0x61] [0x62] ⟨twoFiles, [], []⟩ = some r ∧
      ∃ j, r.proc.fs.stat [0x62] = some j ∧ r.proc.fs.node j = .reg [7, 8] := by
  obtain ⟨r, hr, hok, -⟩ := copy_complete 5 calm plain [0x61] [0x62] ⟨twoFiles, [], []⟩ 1
    (by decide) (by decide) (by decide) (by decide)
  have hrun : (copy_file 5 calm plain [0x61] [0x62] ⟨twoFiles, [], []⟩).map
      (fun r => (r.rc, r.ending)) = some (0, .copied) := by decide
  rw [hr, Option.map_some, Option.some.injEq, Prod.mk.injEq] at hrun
  exact ⟨r, hr, hok hrun.1 (by rw [hrun.2]; decide)⟩

/-- `a` is copied to `b`, and refused as its own destination; and `b` is kept
    when the answer is `n`. -/
theorem source_undamaged_small :
    (∃ r, copy_file 5 calm plain [0x61] [0x62] ⟨twoFiles, [], []⟩ = some r ∧
      r.proc.fs.node 1 = .reg [7, 8]) ∧
    (∃ r, copy_file 5 calm plain [0x61] [0x61] ⟨twoFiles, [], []⟩ = some r ∧
      r.rc = -1 ∧ r.proc.fs = twoFiles) ∧
    ∃ r, copy_file 5 calm { plain with i := true } [0x61] [0x62] ⟨twoFiles, [0x6e], []⟩ = some r ∧
      r.rc = 0 ∧ r.proc.fs = twoFiles := by
  refine ⟨?_, ?_, ?_⟩
  · obtain ⟨-, hsome, hkeeps⟩ := (source_undamaged 5 calm plain [0x61] [0x62]
      ⟨twoFiles, [], []⟩).1 1 (by decide) (by decide)
    obtain ⟨r, hr⟩ := hsome (by decide)
    exact ⟨r, hr, (hkeeps r hr).1⟩
  · exact (source_undamaged 5 calm plain [0x61] [0x61] ⟨twoFiles, [], []⟩).2.1
      (.inr (.inr ⟨1, by decide, .inr ⟨by decide, by decide⟩⟩))
  · refine (source_undamaged 5 calm { plain with i := true } [0x61] [0x62]
      ⟨twoFiles, [0x6e], []⟩).2.2 ?_ rfl (by decide) (by decide)
    rintro (h | h | ⟨i, hi, h⟩)
    · exact h rfl
    · exact absurd h (by decide)
    · obtain rfl : 1 = i := Option.some.inj
        ((show twoFiles.stat [0x61] = some 1 by decide).symm.trans hi)
      exact absurd h (by decide)

theorem copied_without_interruption :
    ∃ r, copy_file 5 calm plain [0x61] [0x62] ⟨twoFiles, [], []⟩ = some r ∧ r.rc = 0 ∧
      ∃ j, r.proc.fs.stat [0x62] = some j ∧ r.proc.fs.node j = .reg [7, 8] := by
  cases hopen : open_files calm plain [0x61] [0x62] ⟨twoFiles, [], []⟩ with
  | error r =>
    have hok : (open_files calm plain [0x61] [0x62] ⟨twoFiles, [], []⟩).isOk := by decide
    rw [hopen] at hok
    cases hok
  | ok tq =>
    obtain ⟨t, q⟩ := tq
    obtain ⟨r, n, hr, -, hiff⟩ := copied_iff_not_interrupted 5 calm plain [0x61] [0x62]
      ⟨twoFiles, [], []⟩ q t 1 (by decide) (by decide) (by decide) hopen rfl
      (fun k e h => by cases h) (by decide)
    exact ⟨r, hr, hiff.mpr fun k _ h => by cases h⟩

/-- `read` is interrupted, and `copy_file` fails with an empty destination. -/
theorem interruption_is_failure :
    ∃ r, copy_file 5 interrupted plain [0x61] [0x62] ⟨twoFiles, [], []⟩ = some r ∧
      r.rc = -1 ∧ r.proc.fs.data 2 = [] := by
  have hrun : (copy_file 5 interrupted plain [0x61] [0x62] ⟨twoFiles, [], []⟩).map
      (fun r => (r.rc, r.proc.fs.data 2)) = some (-1, []) := by decide
  obtain ⟨r, hr, heq⟩ := Option.map_eq_some_iff.mp hrun
  rw [Prod.mk.injEq] at heq
  exact ⟨r, hr, heq⟩

end MyCp
