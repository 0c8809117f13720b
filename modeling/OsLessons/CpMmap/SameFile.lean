import OsLessons.Lib.Resolution

/-! # cp_mmap

  `main`: the source is opened and its size is taken, the destination is
  truncated and resized, both are mapped, and the mapped bytes are copied.
  Every call may fail; only regular files can be resized and mapped. A
  directory has no size here (the one that `fstat` reports is up to the file
  system), and no result is about one as the source.

  The size is taken before the destination is truncated, so that a file that
  is copied onto itself is filled with zeros (`main_success`).
-/

namespace CpMmap

open FileSystem

/-- The calls that can fail. -/
inductive Call where
  | openSrc | fstat | openDst | ftruncate | mmapSrc | mmapDst | msync | munmapSrc | munmapDst
  | closeSrc | fsync | closeDst
  deriving DecidableEq

/-- `ftruncate`: cut, or filled up with zeros. -/
def resize (data : List UInt8) (size : ℕ) : List UInt8 := data.takeD size 0

/-- `memcpy(dst_map, src_map, len)`: the mapping of the source shows the file
    as it is now. -/
def memcpy (fs : FS) (fd_src fd_dst : Ino) (len : ℕ) : FS :=
  fs.setData fd_dst (writeAt (fs.data fd_dst) 0 ((fs.data fd_src).take len))

/-- Behind `ftruncate`; `true` for `EXIT_SUCCESS`. -/
def copy_mapped (fails : Call → Bool) (fd_src fd_dst : Ino) (len : ℕ) (fs : FS) : Bool × FS :=
  if len = 0 then (!fails .fsync && !fails .closeSrc && !fails .closeDst, fs)
  else if fails .mmapSrc || !fs.isReg fd_src || fails .mmapDst then (false, fs)
  else
    (!fails .msync && !fails .munmapSrc && !fails .munmapDst && !fails .closeSrc &&
      !fails .fsync && !fails .closeDst, memcpy fs fd_src fd_dst len)

/-- `main`: whether it returns `EXIT_SUCCESS`, and the files then. -/
def main (fails : Call → Bool) (src_path dst_path : Path) (fs : FS) : Bool × FS :=
  match fs.open_read src_path, fails .openSrc || fails .fstat with
  | .ok fd_src, false =>
      let len := (fs.data fd_src).length
      match fs.open_trunc dst_path, fails .openDst with
      | .ok (fd_dst, fs), false =>
          if fails .ftruncate || !fs.isReg fd_dst then (false, fs)
          else
            copy_mapped fails fd_src fd_dst len (fs.setData fd_dst (resize (fs.data fd_dst) len))
      | _, _ => (false, fs)
  | _, _ => (false, fs)

/-! ### The source and the destination are one file -/

variable {fails : Call → Bool} {src_path dst_path : Path} {fs fs' : FS} {i j : Ino}

theorem resize_nil (len : ℕ) : resize [] len = List.replicate len 0 := List.takeD_nil ..

/-- As long as the source. -/
theorem writeAt_all {old data : List UInt8} (h : old.length = data.length) :
    writeAt old 0 data = data := by
  rw [writeAt, List.takeD_zero, List.nil_append, Nat.zero_add, ← h, List.drop_length,
    List.append_nil]

/-- What a successful copy leaves in the destination. -/
def copied (same : Bool) (data : List UInt8) : List UInt8 :=
  if same then List.replicate data.length 0 else data

theorem copy_mapped_success {data : List UInt8} {fs₁ : FS} (hreg : fs₁.isReg j)
    (hempty : fs₁.node j = .reg []) (hsrc : i ≠ j → fs₁.data i = data)
    (h : copy_mapped fails i j data.length (fs₁.setData j (resize (fs₁.data j) data.length)) =
      (true, fs')) :
    fs' = fs₁.setData j (copied (i = j) data) := by
  have hdata : fs₁.data j = [] := by rw [FS.data, hempty]
  rw [hdata, resize_nil] at h
  unfold copy_mapped at h
  split at h
  · next hlen =>
    rw [List.length_eq_zero_iff] at hlen
    rw [Prod.mk.injEq] at h
    rw [← h.2, hlen]
    cases hij : decide (i = j) <;> rfl
  · split at h
    · cases h
    · rw [Prod.mk.injEq] at h
      rw [← h.2, memcpy, FS.setData_setData, FS.data_setData_self hreg]
      congr 1
      by_cases hij : i = j
      · rw [hij, FS.data_setData_self hreg, List.take_of_length_le (by simp),
          writeAt_all (by simp)]
        simp [copied]
      · rw [FS.data_congr (FS.node_setData_ne hij), hsrc hij, List.take_length,
          writeAt_all (by simp)]
        simp [copied, hij]

/-- A successful run truncates the destination, and leaves the source in it. -/
theorem main_success (hsrc : fs.stat src_path = some i) (hreg : fs.isReg i)
    (h : main fails src_path dst_path fs = (true, fs')) :
    ∃ fs₁ j, fs.open_trunc dst_path = .ok (j, fs₁) ∧ fs₁.isReg j ∧
      fs' = fs₁.setData j (copied (i = j) (fs.data i)) := by
  unfold main at h
  rw [FS.open_read_eq_ok.mpr hsrc] at h
  split at h
  swap
  · cases h
  next fd_src hfd _ =>
  obtain rfl : i = fd_src := Except.ok.inj hfd
  dsimp only at h
  split at h
  swap
  · cases h
  next fd_dst fs₁ hopen _ =>
  split at h
  · cases h
  next hfails =>
  have hopened := FS.open_trunc_ok hopen
  have hregj : fs₁.isReg fd_dst = true := by
    rw [Bool.or_eq_true, not_or, Bool.not_eq_true', Bool.not_eq_false] at hfails
    exact hfails.2
  refine ⟨fs₁, fd_dst, hopen, hregj, ?_⟩
  refine copy_mapped_success hregj (hopened.empty hregj) (fun hne => ?_) h
  exact FS.data_congr (hopened.keeps i hne (FS.isDir_of_isReg hreg))

/-- When no call fails, a copy onto a regular file succeeds. -/
theorem main_calm (hsrc : fs.stat src_path = some i) (hreg : fs.isReg i)
    (hdst : fs.stat dst_path = some i) :
    ∃ fs', main (fun _ => false) src_path dst_path fs = (true, fs') := by
  have hreg' : (fs.setData i []).isReg i = true := by rw [FS.isReg_setData, hreg]
  unfold main
  rw [FS.open_read_eq_ok.mpr hsrc, FS.open_trunc_of_isReg hdst hreg]
  simp only [Bool.or_self, hreg', Bool.not_true, Bool.false_eq_true, ↓reduceIte, copy_mapped]
  split
  · exact ⟨_, rfl⟩
  · simp [FS.isReg_setData, hreg]

/-- A successful run keeps the source and copies it if and only if the
    destination is another file, or all bytes of the source are zeros. -/
theorem copy_keeps_source_iff (fs : FS) (src_path dst_path : Path) (i : Ino)
    (hsrc : fs.stat src_path = some i) (hreg : fs.isReg i) :
    (∀ fails fs', main fails src_path dst_path fs = (true, fs') →
      (∃ j, fs'.stat dst_path = some j ∧ fs'.node j = .reg (fs.data i)) ∧
        fs'.node i = fs.node i) ↔
      (fs.stat dst_path = some i → ∀ b ∈ fs.data i, b = 0) := by
  obtain ⟨data, hnode⟩ := FS.exists_of_isReg hreg
  have hdata : fs.data i = data := by rw [FS.data, hnode]
  rw [hdata, hnode]
  constructor
  · intro h hdst b hb
    obtain ⟨fs', hrun⟩ := main_calm hsrc hreg hdst
    have hkept := (h _ fs' hrun).2
    obtain ⟨fs₁, j, hopen, hregj, rfl⟩ := main_success hsrc hreg hrun
    rw [FS.open_trunc_of_isReg hdst hreg] at hopen
    cases hopen
    rw [FS.node_setData_of_isReg hregj, hdata] at hkept
    have hzero : List.replicate data.length 0 = data := by simpa [copied] using hkept
    rw [← hzero] at hb
    exact List.eq_of_mem_replicate hb
  · intro h fails fs' hrun
    obtain ⟨fs₁, j, hopen, hregj, rfl⟩ := main_success hsrc hreg hrun
    have hopened := FS.open_trunc_ok hopen
    rw [hdata]
    have hcopied : copied (i = j) data = data := by
      by_cases hij : i = j
      · rcases hopened.origin with ⟨hstat, -, -⟩ | ⟨hnew, -⟩
        · have hall := h (hij ▸ hstat)
          have hzero : List.replicate data.length 0 = data :=
            (List.eq_replicate_iff.mpr ⟨rfl, hall⟩).symm
          simpa [copied, hij] using hzero
        · exact absurd (FS.lt_next_of_isReg hreg) (by rw [hij, hnew]; exact lt_irrefl _)
      · simp [copied, hij]
    rw [hcopied]
    refine ⟨⟨j, ?_, FS.node_setData_of_isReg hregj _⟩, ?_⟩
    · rw [FS.stat, FS.resolve_setData]
      exact hopened.stat
    · by_cases hij : i = j
      · rw [hij, FS.node_setData_of_isReg hregj]
      · rw [FS.node_setData_ne hij, hopened.keeps i hij
          (FS.isDir_of_isReg hreg), hnode]

/-- The files `a` and `c`, and another name `b` for `a`. -/
def linked : FS :=
  .ofPlans [.folder [([0x61], 1), ([0x62], 1), ([0x63], 2)], .file [7, 8], .file [9]]

theorem copy_keeps_source_other :
    ∃ fs', main (fun _ => false) [0x61] [0x63] linked = (true, fs') ∧
      (∃ j, fs'.stat [0x63] = some j ∧ fs'.node j = .reg (linked.data 1)) ∧
        fs'.node 1 = linked.node 1 := by
  have hkept := (copy_keeps_source_iff linked [0x61] [0x63] 1 (by decide) (by decide)).mpr
    fun h => absurd h (by decide)
  cases hmain : main (fun _ => false) [0x61] [0x63] linked with
  | mk ok fs' =>
    have hok : (main (fun _ => false) [0x61] [0x63] linked).1 = true := by decide
    rw [hmain] at hok
    obtain rfl : ok = true := hok
    exact ⟨fs', rfl, hkept _ fs' hmain⟩

/-- A file copied onto another name of it: success, and zeros. -/
theorem copy_onto_itself :
    (main (fun _ => false) [0x61] [0x62] linked).1 = true ∧
      (main (fun _ => false) [0x61] [0x62] linked).2.data 1 = [0, 0] ∧
      linked.data 1 = [7, 8] := by
  decide

end CpMmap
