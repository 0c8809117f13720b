import OsLessons.Lib.Resolution
import OsLessons.MyCp.Model

/-! # my_cp: the loops of `copy_file`

  `Copies` holds after every call of `read` and `write`: apart from the content
  of the destination nothing has changed, and that content is the source up to
  the offset of the last write. Every call takes something away from `work`.
-/

namespace MyCp

open FileSystem

/-! ### One call -/

theorem amount_pos {n max : ℕ} (h : 0 < max) : 0 < amount n max ∧ amount n max ≤ max :=
  ⟨lt_min n.succ_pos h, min_le_right ..⟩

/-- The copy of `src`, `fs₀` being the files when both had been opened. -/
structure Copies (fs₀ : FS) (i j : Ino) (src : List UInt8) (t : Transfer) : Prop where
  in_fd : t.in_fd = i
  out_fd : t.out_fd = j
  fs : t.fs = fs₀.setData j (src.take t.out_pos)
  in_pos : t.in_pos = t.out_pos + t.buf.length
  le : t.in_pos ≤ src.length
  buf : t.buf = (src.drop t.out_pos).take t.buf.length
  eof : t.phase = .eof → t.out_pos = src.length
  failed : t.phase = .readFailed ∨ t.phase = .writeFailed ↔ ∃ e, Answer.err e ∈ t.answers

/-- The calls that are left, at most. -/
def Transfer.work (src : List UInt8) (t : Transfer) : ℕ :=
  2 * (src.length - t.in_pos) + t.buf.length + if t.phase = .copying then 1 else 0

variable {fs₀ : FS} {i j : Ino} {src : List UInt8} {t : Transfer}

theorem Copies.start (hempty : fs₀.setData j [] = fs₀) :
    Copies fs₀ i j src (.start fs₀ i j) where
  in_fd := rfl
  out_fd := rfl
  fs := hempty.symm
  in_pos := rfl
  le := Nat.zero_le _
  buf := rfl
  eof := fun h => by cases h
  failed := by simp [Transfer.start]

theorem step_of_done (h : t.phase ≠ .copying) (a : Answer) : t.step a = t := by
  unfold Transfer.step
  split
  · next hphase => exact absurd hphase h
  · rfl

theorem step_err (h : t.phase = .copying) (e : Errno) :
    t.step (.err e) = { t with
      phase := if t.buf = [] then .readFailed else .writeFailed
      answers := t.answers ++ [.err e] } := by
  cases hbuf : t.buf <;> simp [Transfer.step, h, hbuf]

theorem step_read (h : t.phase = .copying) (hbuf : t.buf = []) (n : ℕ) :
    t.step (.ok n) =
      if (t.fs.data t.in_fd).drop t.in_pos = [] then
        { t with phase := .eof, answers := t.answers ++ [.ok n] }
      else
        { t with
          buf := ((t.fs.data t.in_fd).drop t.in_pos).take (amount n BUF_SIZE)
          in_pos := t.in_pos +
            (((t.fs.data t.in_fd).drop t.in_pos).take (amount n BUF_SIZE)).length
          answers := t.answers ++ [.ok n] } := by
  have hpos : amount n BUF_SIZE ≠ 0 := (amount_pos (by decide)).1.ne'
  simp [Transfer.step, h, hbuf, List.take_eq_nil_iff, hpos]

theorem step_write (h : t.phase = .copying) (hbuf : t.buf ≠ []) (n : ℕ) :
    t.step (.ok n) = { t with
      fs := t.fs.setData t.out_fd
        (writeAt (t.fs.data t.out_fd) t.out_pos (t.buf.take (amount n t.buf.length)))
      out_pos := t.out_pos + amount n t.buf.length
      buf := t.buf.drop (amount n t.buf.length)
      answers := t.answers ++ [.ok n] } := by
  cases hb : t.buf with
  | nil => exact absurd hb hbuf
  | cons c buf => simp [Transfer.step, h, hb]

/-- What is written lies behind what has been written. -/
theorem writeAt_take {n : ℕ} (h : n ≤ src.length) (bytes : List UInt8) :
    writeAt (src.take n) n bytes = src.take n ++ bytes := by
  have hlen : (src.take n).length = n := List.length_take_of_le h
  rw [writeAt, List.takeD_eq_take _ (by omega), List.take_of_length_le hlen.le,
    List.drop_of_length_le (by omega), List.append_nil]

theorem Copies.step (hin : ∀ x, (fs₀.setData j x).data i = src) (h : Copies fs₀ i j src t)
    (a : Answer) : Copies fs₀ i j src (t.step a) := by
  by_cases hphase : t.phase = .copying
  swap
  · rwa [step_of_done hphase]
  obtain ⟨rfl, rfl, hfs, hpos, hle, hbuf, heof, hfailed⟩ := h
  have hok : ¬ ∃ e, Answer.err e ∈ t.answers := by simpa [hphase] using hfailed
  cases a with
  | err e =>
    rw [step_err hphase]
    refine ⟨rfl, rfl, hfs, hpos, hle, hbuf, ?_, ?_⟩
    · intro h
      split at h <;> cases h
    · refine iff_of_true ?_ ⟨e, List.mem_append_right _ List.mem_cons_self⟩
      by_cases hnil : t.buf = []
      · exact .inl (if_pos hnil)
      · exact .inr (if_neg hnil)
  | ok n =>
    have hok' : ¬ ∃ e, Answer.err e ∈ t.answers ++ [Answer.ok n] := by
      simpa using hok
    by_cases hnil : t.buf = []
    · rw [step_read hphase hnil, hfs, hin, ← hfs]
      rw [hnil, List.length_nil, Nat.add_zero] at hpos
      by_cases hend : src.drop t.in_pos = []
      · rw [if_pos hend]
        rw [List.drop_eq_nil_iff] at hend
        refine ⟨rfl, rfl, hfs, by rw [hnil]; exact hpos, hle, hbuf, fun _ => ?_, ?_⟩
        · change t.out_pos = src.length
          omega
        · exact iff_of_false (by simp) hok'
      · rw [if_neg hend]
        have hlen := List.length_take_le (amount n BUF_SIZE) (src.drop t.in_pos)
        have hlen' : ((src.drop t.in_pos).take (amount n BUF_SIZE)).length ≤
            (src.drop t.in_pos).length := List.length_take_le' ..
        rw [List.length_drop] at hlen'
        refine ⟨rfl, rfl, hfs, ?_, ?_, ?_, fun h => ?_, ?_⟩
        · change t.in_pos + _ = t.out_pos + _
          rw [hpos]
        · change t.in_pos + _ ≤ _
          omega
        · change _ = (src.drop t.out_pos).take _
          rw [← hpos, List.length_take, ← List.take_eq_take_min]
        · change t.phase = .eof at h
          rw [hphase] at h
          cases h
        · refine iff_of_false ?_ hok'
          change ¬ (t.phase = _ ∨ t.phase = _)
          simp [hphase]
    · obtain ⟨hw, hwle⟩ := amount_pos (n := n) (List.length_pos_iff.mpr hnil)
      rw [step_write hphase hnil]
      generalize amount n t.buf.length = w at hw hwle
      -- the bytes that are written are the next ones of the source
      have htake : t.buf.take w = (src.drop t.out_pos).take w := by
        rw [hbuf, List.take_take, min_eq_left hwle]
      refine ⟨rfl, rfl, ?_, ?_, hle, ?_, fun h => ?_, ?_⟩
      · change t.fs.setData _ _ = fs₀.setData _ (src.take (t.out_pos + w))
        rw [List.take_add, ← htake]
        cases hreg : fs₀.isReg t.out_fd with
        | false =>
          have hreg' : t.fs.isReg t.out_fd = false := by rw [hfs, FS.isReg_setData, hreg]
          rw [FS.setData_of_not_reg hreg', hfs, FS.setData_of_not_reg hreg,
            FS.setData_of_not_reg hreg]
        | true =>
          rw [hfs, FS.data_setData_self hreg, writeAt_take (by omega), FS.setData_setData]
      · change t.in_pos = t.out_pos + w + (t.buf.drop w).length
        rw [List.length_drop]
        omega
      · change t.buf.drop w = (src.drop (t.out_pos + w)).take (t.buf.drop w).length
        rw [← List.drop_drop, List.length_drop, ← List.drop_take, ← hbuf]
      · change t.phase = .eof at h
        rw [hphase] at h
        cases h
      · refine iff_of_false ?_ hok'
        change ¬ (t.phase = _ ∨ t.phase = _)
        simp [hphase]

theorem Copies.work_step (hin : ∀ x, (fs₀.setData j x).data i = src) (h : Copies fs₀ i j src t)
    (hphase : t.phase = .copying) (a : Answer) : (t.step a).work src < t.work src := by
  have hwork : t.work src = 2 * (src.length - t.in_pos) + t.buf.length + 1 := by
    rw [Transfer.work, if_pos hphase]
  rw [hwork]
  cases a with
  | err e =>
    rw [step_err hphase]
    change 2 * (src.length - t.in_pos) + t.buf.length +
      (if (if t.buf = [] then Phase.readFailed else .writeFailed) = .copying then 1 else 0) < _
    rw [if_neg (by split <;> decide)]
    omega
  | ok n =>
    by_cases hnil : t.buf = []
    · rw [step_read hphase hnil, h.in_fd, h.fs, hin, ← h.fs]
      by_cases hend : src.drop t.in_pos = []
      · rw [if_pos hend]
        change 2 * (src.length - t.in_pos) + t.buf.length + 0 < _
        omega
      · rw [if_neg hend]
        -- a chunk counts twice before it is read and once after
        have hpos : 0 < ((src.drop t.in_pos).take (amount n BUF_SIZE)).length := by
          rw [List.length_pos_iff, Ne, List.take_eq_nil_iff, not_or]
          exact ⟨(amount_pos (by decide)).1.ne', hend⟩
        have hle : ((src.drop t.in_pos).take (amount n BUF_SIZE)).length ≤
            (src.drop t.in_pos).length := List.length_take_le' ..
        rw [List.length_drop] at hle
        generalize (src.drop t.in_pos).take (amount n BUF_SIZE) = chunk at hpos hle
        change 2 * (src.length - (t.in_pos + chunk.length)) + chunk.length +
          (if t.phase = .copying then 1 else 0) < _
        rw [if_pos hphase, hnil, List.length_nil]
        omega
    · obtain ⟨hw, hwle⟩ := amount_pos (n := n) (List.length_pos_iff.mpr hnil)
      rw [step_write hphase hnil]
      change 2 * (src.length - t.in_pos) + (t.buf.drop _).length +
        (if t.phase = .copying then 1 else 0) < _
      rw [if_pos hphase, List.length_drop]
      omega

/-! ### All calls -/

theorem Copies.steps (hin : ∀ x, (fs₀.setData j x).data i = src) (h : Copies fs₀ i j src t)
    (io : ℕ → Answer) (n : ℕ) : Copies fs₀ i j src (t.steps io n) := by
  induction n with
  | zero => exact h
  | succ n ih => exact ih.step hin (io n)

theorem Copies.work_steps (hin : ∀ x, (fs₀.setData j x).data i = src) (h : Copies fs₀ i j src t)
    (io : ℕ → Answer) (n : ℕ) (hphase : (t.steps io n).phase = .copying) :
    (t.steps io n).work src + n ≤ t.work src := by
  induction n with
  | zero => exact le_rfl
  | succ n ih =>
    have hprev : (t.steps io n).phase = .copying := by
      by_contra hdone
      rw [Transfer.steps, step_of_done hdone] at hphase
      exact hdone hphase
    have hstep := (h.steps hin io n).work_step hin hprev (io n)
    have hle := ih hprev
    change ((t.steps io n).step (io n)).work src + (n + 1) ≤ _
    omega

/-- The loops end after at most two calls for a byte, and one. -/
theorem steps_done (hin : ∀ x, (fs₀.setData j x).data i = src) (hempty : fs₀.setData j [] = fs₀)
    (io : ℕ → Answer) {n : ℕ} (hn : 2 * src.length < n) :
    ((Transfer.start fs₀ i j).steps io n).phase ≠ .copying := by
  intro hphase
  have hle := (Copies.start hempty).work_steps hin io n hphase
  have hstart : (Transfer.start fs₀ i j).work src = 2 * src.length + 1 := rfl
  have hwork : 0 < ((Transfer.start fs₀ i j).steps io n).work src := by
    rw [Transfer.work, if_pos hphase]
    exact Nat.succ_pos _
  omega

/-- Without an error the whole source has been written. -/
theorem Copies.complete (h : Copies fs₀ i j src t) (hphase : t.phase = .eof) :
    t.fs = fs₀.setData j src := by
  rw [h.fs, h.eof hphase, List.take_length]

theorem answers_step (h : t.phase = .copying) (a : Answer) :
    (t.step a).answers = t.answers ++ [a] := by
  cases a with
  | err e => rw [step_err h]
  | ok m =>
    by_cases hnil : t.buf = []
    · rw [step_read h hnil]
      split <;> rfl
    · rw [step_write h hnil]

/-- Every answer is one of the environment. -/
theorem mem_answers (io : ℕ → Answer) {n : ℕ} {a : Answer} (h : a ∈ (t.steps io n).answers) :
    a ∈ t.answers ∨ ∃ k, io k = a := by
  induction n with
  | zero => exact .inl h
  | succ n ih =>
    rw [Transfer.steps] at h
    by_cases hphase : (t.steps io n).phase = .copying
    · rw [answers_step hphase, List.mem_append, List.mem_singleton] at h
      exact h.elim ih fun heq => .inr ⟨n, heq.symm⟩
    · rw [step_of_done hphase] at h
      exact ih h

/-- The calls that were made, and what they answered. -/
theorem answers_steps (io : ℕ → Answer) {n : ℕ}
    (hrun : ∀ k < n, (t.steps io k).phase = .copying) :
    (t.steps io n).answers = t.answers ++ (List.range n).map io := by
  induction n with
  | zero => simp [Transfer.steps]
  | succ n ih =>
    rw [Transfer.steps, answers_step (hrun n n.lt_succ_self),
      ih fun k hk => hrun k (Nat.lt_succ_of_lt hk), List.range_succ, List.map_append,
      List.append_assoc]
    rfl

/-- When the loops have ended, nothing happens any more. -/
theorem steps_of_done (io : ℕ → Answer) {n : ℕ} (hdone : (t.steps io n).phase ≠ .copying) {m : ℕ}
    (hm : n ≤ m) : t.steps io m = t.steps io n := by
  induction m, hm using Nat.le_induction with
  | base => rfl
  | succ m _ ih => rw [Transfer.steps, ih, step_of_done hdone]

end MyCp
