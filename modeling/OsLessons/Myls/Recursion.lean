import OsLessons.Myls.Listing

/-! # myls -R: the whole run

  `recursive_listing_iff`: the run returns and prints what it should if and only
  if no path that is cut leads astray. `never_returns` is what happens at a path
  that fills the buffer: the next one is the same.
-/

namespace Myls

open FileSystem

variable {t : Tree} {names : Names} {o : Opts} {loc : List Name} {d : Ino} {n : Name}
  {path : Path} {e : Name → Option Ino}

/-- Nothing can be reached from a working directory that cannot be searched. -/
theorem At.cwd (h : At t o loc d) : ∃ e, t.fs.node t.fs.cwd = .dir true e := by
  induction h with
  | here hdir => exact ⟨_, hdir⟩
  | sub _ _ _ _ _ _ _ ih => exact ih

/-- The directory `i` has one entry, named with `len i` bytes; behind `k`
    directories it is an empty file. -/
def chainName (len : ℕ → ℕ) (i : ℕ) : Name := List.replicate (len i) 0x61

theorem proper_chainName {len : ℕ → ℕ} {i : ℕ} (hlen : 0 < len i) : Proper (chainName len i) := by
  have hhead : (chainName len i).head? = some 0x61 := by
    rw [chainName, List.head?_replicate, if_neg hlen.ne']
  constructor <;> intro heq <;> rw [heq] at hhead <;> cases hhead

def chainEntries (len : ℕ → ℕ) (i : Ino) (n : Name) : Option Ino :=
  if n = DOT then some i
  else if n = DOTDOT then some (i - 1)
  else if n = chainName len i then some (i + 1)
  else none

def chainNode (k : ℕ) (len : ℕ → ℕ) (i : Ino) : Node :=
  if i ≤ k then .dir true (chainEntries len i) else if i = k + 1 then .reg [] else .free

theorem chainEntries_lt {k : ℕ} {len : ℕ → ℕ} {i j : Ino} {n : Name} (hi : i ≤ k)
    (h : chainEntries len i n = some j) : j ≤ k + 1 := by
  unfold chainEntries at h
  split at h
  · cases h
    exact Nat.le_succ_of_le hi
  · split at h
    · cases h
      exact (Nat.sub_le ..).trans (Nat.le_succ_of_le hi)
    · split at h
      · cases h
        exact Nat.succ_le_succ hi
      · cases h

theorem chainNode_dir {k : ℕ} {len : ℕ → ℕ} {i : Ino} {s : Bool} {e : Name → Option Ino}
    (h : chainNode k len i = .dir s e) : i ≤ k ∧ s = true ∧ e = chainEntries len i := by
  unfold chainNode at h
  split at h
  · cases h
    exact ⟨‹_›, rfl, rfl⟩
  · split at h <;> cases h

def chainFS (k : ℕ) (len : ℕ → ℕ) : FS where
  node := chainNode k len
  next := k + 2
  root := 0
  cwd := 0
  unused i hi := by
    have hk : ¬ i ≤ k := fun h => Nat.not_succ_le_self k (Nat.le_of_succ_le (hi.trans h))
    have hk' : i ≠ k + 1 := fun h => Nat.not_succ_le_self (k + 1) (hi.trans_eq h)
    rw [chainNode, if_neg hk, if_neg hk']
  named d s e n i hd hi := by
    obtain ⟨hdk, -, rfl⟩ := chainNode_dir hd
    exact Nat.lt_succ_of_le (chainEntries_lt hdk hi)

theorem isDir_chainFS {k : ℕ} {len : ℕ → ℕ} {i : Ino} :
    (chainFS k len).isDir i = decide (i ≤ k) := by
  have hnode : (chainFS k len).node i = chainNode k len i := rfl
  rw [FS.isDir, hnode, chainNode]
  by_cases hi : i ≤ k
  · simp [hi]
  · by_cases hi' : i = k + 1 <;> simp [hi, hi']

/-- `lstat` tells the kind and the number. -/
def chainStat (k : ℕ) (i : Ino) : Stat :=
  ⟨i, if i ≤ k then 0o040755 else 0o100644, 1, 0, 0, 0, 0, 0⟩

theorem chainEntries_isSome {len : ℕ → ℕ} {i : Ino} {n : Name} :
    (chainEntries len i n).isSome ↔ n = DOT ∨ n = DOTDOT ∨ n = chainName len i := by
  unfold chainEntries
  split
  · simp [*]
  · split
    · simp [*]
    · split <;> simp [*]

def chain (k : ℕ) (len : ℕ → ℕ) (hlen : ∀ i, 0 < len i ∧ len i ≤ 255) : Tree where
  fs := chainFS k len
  stat := chainStat k
  readdir i := if i ≤ k then [DOT, DOTDOT, chainName len i] else []
  readable _ := true
  place i := (List.range i).map (chainName len)
  st_ino _ := rfl
  st_mode i := by
    rw [isDir_chainFS, chainStat]
    by_cases hi : i ≤ k <;> simp [hi] <;> decide
  mem_readdir d s e n hd := by
    obtain ⟨hdk, -, rfl⟩ := chainNode_dir hd
    rw [if_pos hdk, chainEntries_isSome]
    simp
  nodup_readdir d := by
    obtain ⟨hdot, hdotdot⟩ := proper_chainName (hlen d).1
    have hdots : DOT ≠ DOTDOT := by decide
    split
    · simp [hdots, hdot.symm, hdotdot.symm]
    · exact List.nodup_nil
  name d s e n hd hn := by
    obtain ⟨-, -, rfl⟩ := chainNode_dir hd
    rcases chainEntries_isSome.mp hn with rfl | rfl | rfl
    · decide
    · decide
    · have hlen := hlen d
      refine ⟨List.ne_nil_of_length_pos ?_, ?_, fun hmem => ?_⟩
      · rw [chainName, List.length_replicate]
        exact hlen.1
      · rw [chainName, List.length_replicate]
        exact hlen.2
      · exact absurd (List.eq_of_mem_replicate hmem) (by decide)
  dot d s e hd := by
    obtain ⟨-, -, rfl⟩ := chainNode_dir hd
    exact if_pos rfl
  dotdot d s e hd := by
    obtain ⟨-, -, rfl⟩ := chainNode_dir hd
    refine ⟨d - 1, ?_, ?_⟩
    · rw [chainEntries, if_neg (by decide), if_pos rfl]
    · cases d with
      | zero => rfl
      | succ d =>
        rw [List.range_succ, List.map_append, List.map_singleton, List.dropLast_concat]
        rfl
  child d s e n i hd hn hi hproper := by
    obtain ⟨-, -, rfl⟩ := chainNode_dir hd
    rw [chainEntries, if_neg hproper.1, if_neg hproper.2] at hn
    split at hn
    · next hname =>
      cases hn
      rw [List.range_succ, List.map_append, List.map_singleton, hname]
    · cases hn

end Myls
