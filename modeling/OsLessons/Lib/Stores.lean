import OsLessons.Lib.Names

/-! # Files that are stored one after the other

  `Stores fs l files fs'`: the contents in `l` have been stored at their paths,
  each in the file that `files` has at its place. Before a store the name at the
  end of its path may have been removed (`Cleared`), as long as no earlier path
  breaks off. Paths may lead to one file, and then the last one counts
  (`Stores.content`).
-/

namespace FileSystem

theorem getElem?_snoc {α : Type*} {l : List α} {x y : α} {k : ℕ} (h : (l ++ [x])[k]? = some y) :
    k < l.length ∧ l[k]? = some y ∨ k = l.length ∧ y = x := by
  have hk := (List.getElem?_eq_some_iff.mp h).1
  rw [List.length_append, List.length_singleton] at hk
  rcases lt_or_ge k l.length with hlt | hge
  · exact .inl ⟨hlt, (List.getElem?_append_left hlt).symm.trans h⟩
  · obtain rfl : k = l.length := by omega
    rw [List.getElem?_concat_length, Option.some.injEq] at h
    exact .inr ⟨rfl, h.symm⟩

theorem getElem?_init {α : Type*} {l : List α} {x y : α} {k : ℕ} (h : l[k]? = some y) :
    (l ++ [x])[k]? = some y :=
  (List.getElem?_append_left (List.getElem?_eq_some_iff.mp h).1).trans h

/-- The last place of an element from `k` on. -/
theorem exists_last {α : Type*} {l : List α} {x : α} {k : ℕ} (h : l[k]? = some x) :
    ∃ m, k ≤ m ∧ l[m]? = some x ∧ ∀ m', m < m' → l[m']? ≠ some x := by
  classical
  have hk := (List.getElem?_eq_some_iff.mp h).1
  refine ⟨Nat.findGreatest (l[·]? = some x) l.length, Nat.le_findGreatest hk.le h,
    Nat.findGreatest_spec (P := (l[·]? = some x)) hk.le h, fun m' hm' heq => ?_⟩
  exact Nat.findGreatest_is_greatest hm' (List.getElem?_eq_some_iff.mp heq).1.le heq

namespace FS

/-- The name at the end of the path may have been removed. -/
inductive Cleared (fs : FS) (path : Path) : FS → Prop where
  | kept : Cleared fs path fs
  | removed {d : Ino} {n : Name} {i : Ino}
      (found : fs.resolve false path = .found (some (d, n)) i) : Cleared fs path (fs.remove d n)

namespace Cleared

variable {fs fs' : FS} {path path' : Path} {i : Ino}

theorem next (h : Cleared fs path fs') : fs'.next = fs.next := by
  cases h with
  | kept => rfl
  | removed => exact remove_next

theorem isDir (h : Cleared fs path fs') : fs'.isDir i = fs.isDir i := by
  cases h with
  | kept => rfl
  | removed => exact isDir_remove

theorem node (h : Cleared fs path fs') (hdir : fs.isDir i = false) : fs'.node i = fs.node i := by
  cases h with
  | kept => rfl
  | removed => exact node_remove_of_not_dir hdir _ _

theorem stat_back (h : Cleared fs path fs') (hstat : fs'.stat path' = some i) :
    fs.stat path' = some i := by
  cases h with
  | kept => exact hstat
  | removed hfound =>
    obtain ⟨s, e, hd, -⟩ := resolve_entry hfound
    exact stat_remove hd hstat

end Cleared

/-- `data` has been stored at `path`, in the file `j`; a special file swallows it. -/
structure Stored (fs fs' : FS) (path : Path) (j : Ino) (data : List UInt8) : Prop where
  names : Entered fs fs' path j
  stat : fs'.stat path = some j
  not_dir : fs'.isDir j = false
  content : fs'.isReg j → fs'.node j = .reg data
  keeps : ∀ k, k ≠ j → fs.isDir k = false → fs'.node k = fs.node k
  regular : ∀ k, fs.isReg k → fs'.isReg k

/-- A run of stores, with the files that were written. -/
inductive Stores (fs : FS) : List (Path × List UInt8) → List Ino → FS → Prop where
  | nil : Stores fs [] [] fs
  | snoc {l : List (Path × List UInt8)} {files : List Ino} {fs₁ fs₂ fs₃ : FS} {path : Path}
      {j : Ino} {data : List UInt8} (run : Stores fs l files fs₁) (cleared : Cleared fs₁ path fs₂)
      (last : Stored fs₂ fs₃ path j data)
      (spares : ∀ dst ∈ l, ∀ i, fs₁.stat dst.1 = some i →
        fs₃.stat dst.1 = some i ∨ fs₃.stat dst.1 = some j) :
      Stores fs (l ++ [(path, data)]) (files ++ [j]) fs₃

namespace Stores

variable {fs fs' : FS} {l : List (Path × List UInt8)} {files : List Ino} {i j : Ino}
  {path : Path} {data : List UInt8}

theorem length (h : Stores fs l files fs') : files.length = l.length := by
  induction h with
  | nil => rfl
  | snoc _ _ _ _ ih => rw [List.length_append, List.length_append, ih, List.length_singleton,
      List.length_singleton]

theorem next_le (h : Stores fs l files fs') : fs.next ≤ fs'.next := by
  induction h with
  | nil => exact le_rfl
  | snoc _ cleared last _ ih => exact ih.trans (cleared.next ▸ last.names.grows)

theorem isDir (h : Stores fs l files fs') : fs'.isDir i = fs.isDir i := by
  induction h with
  | nil => rfl
  | snoc _ cleared last _ ih => rw [last.names.isDir, cleared.isDir, ih]

/-- Nothing else is written. -/
theorem keeps (h : Stores fs l files fs') (hdir : fs.isDir i = false) (hi : i ∉ files) :
    fs'.node i = fs.node i := by
  induction h with
  | nil => rfl
  | snoc run cleared last _ ih =>
    rw [List.mem_append, List.mem_singleton, not_or] at hi
    have hdir₁ := run.isDir.trans hdir
    rw [last.keeps i hi.2 (cleared.isDir.trans hdir₁), cleared.node hdir₁, ih hi.1]

/-! ### Names -/

/-- What a path leads to in the end, it has led to before, or it is a new file
    that has been written. -/
theorem stat_back (h : Stores fs l files fs') (hstat : fs'.stat path = some i) :
    fs.stat path = some i ∨ i ∈ files ∧ fs.next ≤ i := by
  induction h with
  | nil => exact .inl hstat
  | snoc run cleared last _ ih =>
    rcases last.names.stat_back hstat with hold | ⟨rfl, hnew⟩
    · exact (ih (cleared.stat_back hold)).imp_right fun ⟨hmem, hle⟩ =>
        ⟨List.mem_append_left _ hmem, hle⟩
    · rw [cleared.next] at hnew
      exact .inr ⟨List.mem_append_right _ (List.mem_singleton_self _), hnew ▸ run.next_le⟩

/-- A path that does not lead to `i` does not lead to it later. -/
theorem apart (h : Stores fs l files fs') (hi : i < fs.next) (hpath : fs.stat path ≠ some i) :
    fs'.stat path ≠ some i := by
  intro hstat
  rcases h.stat_back hstat with hold | ⟨-, hle⟩
  · exact hpath hold
  · exact absurd hi (not_lt.mpr hle)

theorem not_mem (h : Stores fs l files fs') (hi : i < fs.next)
    (hl : ∀ dst ∈ l, fs.stat dst.1 ≠ some i) : i ∉ files := by
  induction h with
  | nil => exact List.not_mem_nil
  | snoc run cleared last spares ih =>
    rw [List.mem_append, List.mem_singleton, not_or]
    refine ⟨ih fun dst hdst => hl dst (List.mem_append_left _ hdst), ?_⟩
    rintro rfl
    have hlast := hl _ (List.mem_append_right _ (List.mem_singleton_self _))
    exact (run.snoc cleared last spares).apart hi hlast last.stat

/-- A file that is not stored to holds what it held. -/
theorem node (h : Stores fs l files fs') (hi : i < fs.next) (hdir : fs.isDir i = false)
    (hl : ∀ dst ∈ l, fs.stat dst.1 ≠ some i) : fs'.node i = fs.node i :=
  h.keeps hdir (h.not_mem hi hl)

/-! ### The last one counts -/

/-- A path that has been stored to leads to a file that was written then, or later. -/
theorem reached (h : Stores fs l files fs') {k : ℕ} (hk : l[k]? = some (path, data)) :
    ∃ m j, k ≤ m ∧ files[m]? = some j ∧ fs'.stat path = some j := by
  induction h with
  | nil => cases hk
  | @snoc l files fs₁ fs₂ fs₃ dst j₀ x run cleared last spares ih =>
    have hlast : (files ++ [j₀])[files.length]? = some j₀ := List.getElem?_concat_length
    rcases getElem?_snoc hk with ⟨hlt, hk⟩ | ⟨rfl, heq⟩
    · obtain ⟨m, j, hkm, hm, hstat⟩ := ih hk
      rcases spares _ (List.mem_of_getElem? hk) j hstat with hsame | hnew
      · exact ⟨m, j, hkm, getElem?_init hm, hsame⟩
      · exact ⟨files.length, j₀, (run.length ▸ hlt).le, hlast, hnew⟩
    · cases heq
      exact ⟨files.length, j₀, run.length.ge, hlast, last.stat⟩

/-- A file holds what was stored in it last. -/
theorem content (h : Stores fs l files fs') {m : ℕ} (hm : files[m]? = some j)
    (hlast : ∀ m', m < m' → files[m']? ≠ some j) (hl : l[m]? = some (path, data))
    (hreg : fs'.isReg j) : fs'.node j = .reg data := by
  induction h with
  | nil => cases hm
  | @snoc l files fs₁ fs₂ fs₃ dst j₀ x run cleared last spares ih =>
    rcases getElem?_snoc hm with ⟨hlt, hm⟩ | ⟨rfl, rfl⟩
    · have hne : j ≠ j₀ := by
        rintro rfl
        exact hlast _ hlt List.getElem?_concat_length
      have hdir : fs₂.isDir j = false := (last.names.isDir j).symm.trans (isDir_of_isReg hreg)
      have hnode := (last.keeps j hne hdir).trans (cleared.node (cleared.isDir.symm.trans hdir))
      rw [List.getElem?_append_left (run.length ▸ hlt)] at hl
      rw [hnode]
      exact ih hm (fun m' hm' heq => hlast m' hm' (getElem?_init heq)) hl
        ((isReg_congr hnode).symm.trans hreg)
    · rw [run.length, List.getElem?_concat_length, Option.some.injEq] at hl
      cases hl
      exact last.content hreg

end Stores
end FS
end FileSystem
