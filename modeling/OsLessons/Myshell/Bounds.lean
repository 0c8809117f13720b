import OsLessons.Myshell.Marks

/-! # myshell: the array of `parse_argv`

  The array doubles when a word does not fit, but not for the `NULL` behind the
  last word: with 8, 16, 32, … words that `NULL` is stored behind the array.
-/

namespace Myshell

open CString

/-- Every store is below the number of elements allocated then. -/
def PtrArray.InBounds (arr : PtrArray) : Prop := ∀ st ∈ arr.stores, st.1 < st.2

/-- The array while words are added: the capacity is the least one of 8, 16, 32, …
    that they fit into. -/
structure PtrArray.Grown (arr : PtrArray) (k : ℕ) : Prop where
  cap : arr.cap = 8 * 2 ^ k
  fits : arr.ptrs.length ≤ 8 * 2 ^ k
  needed : k = 0 ∨ 8 * 2 ^ k < 2 * arr.ptrs.length
  stores : arr.InBounds

theorem grown_alloc : PtrArray.alloc.Grown 0 where
  cap := rfl
  fits := Nat.zero_le _
  needed := .inl rfl
  stores := fun st hst => by cases hst

theorem PtrArray.push_of_full {arr : PtrArray} (h : arr.ptrs.length = arr.cap) (p : ℕ) :
    arr.push p =
      ⟨arr.ptrs ++ [p], arr.cap * 2, arr.stores ++ [(arr.ptrs.length, arr.cap * 2)]⟩ := by
  rw [push, if_pos h]

theorem PtrArray.push_of_room {arr : PtrArray} (h : arr.ptrs.length ≠ arr.cap) (p : ℕ) :
    arr.push p = ⟨arr.ptrs ++ [p], arr.cap, arr.stores ++ [(arr.ptrs.length, arr.cap)]⟩ := by
  rw [push, if_neg h]

theorem PtrArray.InBounds.store {arr : PtrArray} (h : arr.InBounds) {i cap : ℕ} (hi : i < cap) :
    ∀ st ∈ arr.stores ++ [(i, cap)], st.1 < st.2 := by
  intro st hst
  rcases List.mem_append.mp hst with hst | hst
  · exact h st hst
  · obtain rfl := List.mem_singleton.mp hst
    exact hi

theorem PtrArray.Grown.push {arr : PtrArray} {k : ℕ} (h : arr.Grown k) (p : ℕ) :
    ∃ k', (arr.push p).Grown k' := by
  obtain ⟨hcap, hfits, hneeded, hstores⟩ := h
  have hpow : 2 ^ (k + 1) = 2 * 2 ^ k := pow_succ' 2 k
  have hpos := Nat.two_pow_pos k
  have hlength : (arr.ptrs ++ [p]).length = arr.ptrs.length + 1 := List.length_append
  by_cases hfull : arr.ptrs.length = arr.cap
  · rw [push_of_full hfull]
    refine ⟨k + 1, ?_, ?_, .inr ?_, hstores.store (by omega)⟩
    · change arr.cap * 2 = _
      omega
    · change (arr.ptrs ++ [p]).length ≤ _
      omega
    · change _ < 2 * (arr.ptrs ++ [p]).length
      omega
  · rw [push_of_room hfull]
    refine ⟨k, hcap, ?_, ?_, hstores.store (by omega)⟩
    · change (arr.ptrs ++ [p]).length ≤ _
      omega
    · change _ ∨ _ < 2 * (arr.ptrs ++ [p]).length
      omega

/-- Only the `NULL` can miss the array. -/
theorem PtrArray.Grown.terminate_inBounds {arr : PtrArray} {k : ℕ} (h : arr.Grown k) :
    arr.terminate.InBounds ↔ ∀ j, arr.ptrs.length ≠ 8 * 2 ^ j := by
  obtain ⟨hcap, hfits, hneeded, hstores⟩ := h
  constructor
  · intro hbounds j heq
    have hlast := hbounds (arr.ptrs.length, arr.cap) (List.mem_append_right _ List.mem_cons_self)
    -- the capacity is a smaller power than the number of words, or the same
    have hjk : 2 ^ j < 2 ^ k := by
      change arr.ptrs.length < arr.cap at hlast
      omega
    have hle : 2 ^ (j + 1) ≤ 2 ^ k :=
      Nat.pow_le_pow_right (by decide) ((Nat.pow_lt_pow_iff_right (by decide)).mp hjk)
    rw [pow_succ] at hle
    rcases hneeded with rfl | hneeded
    · have hpos := Nat.two_pow_pos j
      omega
    · omega
  · intro hne
    have hk := hne k
    exact hstores.store (by omega)

/-- The array that `parse_argv` returns is one that words were added to, with
    the `NULL` behind them. -/
theorem parse_argv_from_grown {fuel k : ℕ} {m m' : Mem} {p : ℕ} {argv argv' : PtrArray}
    (hgrown : argv.Grown k) (h : parse_argv_from fuel m p argv = some (argv', m')) :
    ∃ (arr : PtrArray) (k' : ℕ), argv' = arr.terminate ∧ arr.Grown k' := by
  induction fuel generalizing m p argv k with
  | zero => cases h
  | succ fuel ih =>
    simp only [parse_argv_from, Option.bind_eq_bind, Option.pure_def] at h
    split at h
    · cases h
      exact ⟨argv, k, rfl, hgrown⟩
    · obtain ⟨q, -, h⟩ := Option.bind_eq_some_iff.mp h
      split at h
      · cases h
        exact ⟨argv, k, rfl, hgrown⟩
      · obtain ⟨⟨q', w, m₁⟩, -, h⟩ := Option.bind_eq_some_iff.mp h
        obtain ⟨k', hpush⟩ := hgrown.push q
        exact ih hpush h

/-- The words of a segment, without anything being overwritten. -/
def segmentWords (s : List UInt8) : List Word := (markedWords (marked .out s)).map text

variable {m : Mem} {p fuel : ℕ} {s : List UInt8}

/-- `parse_argv` ends, and stays inside of its array unless the number of words
    is one at which the array is full. -/
theorem parse_argv_stores (h : StrAt m p s) (hfuel : s.length < fuel) :
    ∃ argv m', parse_argv fuel m p = some (argv, m') ∧
      (argv.InBounds ↔ ∀ k, (segmentWords s).length ≠ 8 * 2 ^ k) := by
  obtain ⟨argv, m', ps, hparse, hps, hlaid, -⟩ := parse_argv_from_spec .alloc h hfuel
  obtain ⟨arr, k, rfl, hgrown⟩ := parse_argv_from_grown grown_alloc hparse
  have hlength : arr.ptrs.length = (segmentWords s).length := by
    have hptrs : arr.ptrs = ps := hps
    rw [hptrs, hlaid.forall₂.length_eq, segmentWords, markedWords_eq]
  refine ⟨arr.terminate, m', hparse, ?_⟩
  rw [hgrown.terminate_inBounds, hlength]

theorem parse_argv_stores_pair :
    ∃ argv m', parse_argv 8 (.holding [97, 32, 98]) 0 = some (argv, m') ∧ argv.InBounds := by
  have hline : StrAt (.holding [97, 32, 98]) 0 [97, 32, 98] :=
    ⟨by simp [BytesAt, Mem.holding], by decide, rfl⟩
  obtain ⟨argv, m', hparse, hbounds⟩ := parse_argv_stores hline (show _ < 8 by decide)
  refine ⟨argv, m', hparse, hbounds.mpr fun k heq => ?_⟩
  have hlength : (segmentWords [97, 32, 98]).length = 2 := by decide
  have hpos := Nat.two_pow_pos k
  omega

/-- Eight words of one letter. -/
def eightWords : List UInt8 := [97, 32, 97, 32, 97, 32, 97, 32, 97, 32, 97, 32, 97, 32, 97]

theorem terminator_overflows :
    ¬ ∀ (m : Mem) (p fuel : ℕ) (s : List UInt8), StrAt m p s → s.length < fuel →
      ∃ argv m', parse_argv fuel m p = some (argv, m') ∧ argv.InBounds := by
  intro h
  have hline : StrAt (.holding eightWords) 0 eightWords :=
    ⟨by simp [BytesAt, Mem.holding, eightWords], by decide, rfl⟩
  obtain ⟨argv, m', hparse, hbounds⟩ := h _ 0 16 _ hline (by decide)
  have hlast : ((parse_argv 16 (.holding eightWords) 0).bind fun r => r.1.stores.getLast?) =
      some (8, 8) := by decide
  rw [hparse, Option.bind_some] at hlast
  exact absurd (hbounds _ (List.mem_of_getLast? hlast)) (by decide)

end Myshell
