import Mathlib

/-! # Compaction in place

  A loop over an array that moves what is to be kept to its front: position `w`
  is where the next kept element goes, and never in front of the one that is
  read (`Compacted.w_le`). In the end the front is the array, filtered (`run_take`).
-/

namespace Compaction

variable {α : Type*} (p : α → Bool)

/-- Reads position `i`, and writes what it finds to position `w` if it is kept. -/
def step (s : List α × ℕ) (i : ℕ) : List α × ℕ :=
  match s.1[i]? with
  | some x => if p x then (s.1.set s.2 x, s.2 + 1) else s
  | none => s

/-- The array behind the loop, and the length of its front. -/
def run (xs : List α) : List α × ℕ := (List.range xs.length).foldl (step p) (xs, 0)

/-- The first `i` positions of `xs` have been read. -/
structure Compacted (xs : List α) (i : ℕ) (s : List α × ℕ) : Prop where
  w : s.2 = (xs.take i).countP p
  front : s.1.take s.2 = (xs.take i).filter p
  rest : s.1.drop i = xs.drop i

variable {p} {xs : List α} {i : ℕ} {s : List α × ℕ} {x : α}

theorem step_of_pos (hx : s.1[i]? = some x) (hp : p x = true) :
    step p s i = (s.1.set s.2 x, s.2 + 1) := by
  rw [step, hx]
  exact if_pos hp

theorem step_of_neg (hx : s.1[i]? = some x) (hp : ¬ p x = true) : step p s i = s := by
  rw [step, hx]
  exact if_neg hp

theorem Compacted.w_le (h : Compacted p xs i s) : s.2 ≤ i := by
  rw [h.w]
  exact le_trans List.countP_le_length (List.length_take_le i xs)

/-- What is read has not been written yet. -/
theorem Compacted.getElem? (h : Compacted p xs i s) : s.1[i]? = xs[i]? := by
  have hhead := congrArg List.head? h.rest
  rwa [List.head?_drop, List.head?_drop] at hhead

theorem Compacted.step (h : Compacted p xs i s) (hi : i < xs.length) :
    Compacted p xs (i + 1) (step p s i) := by
  have hget : s.1[i]? = some xs[i] := by
    rw [h.getElem?, List.getElem?_eq_getElem hi]
  have hlen : i < s.1.length := (List.getElem?_eq_some_iff.mp hget).1
  have htail : s.1.drop (i + 1) = xs.drop (i + 1) := by
    rw [← List.tail_drop, ← List.tail_drop, h.rest]
  have htake : xs.take (i + 1) = xs.take i ++ [xs[i]] := List.take_succ_eq_append_getElem hi
  by_cases hp : p xs[i] = true
  · rw [step_of_pos hget hp]
    refine ⟨?_, ?_, ?_⟩
    · show s.2 + 1 = _
      rw [htake, List.countP_append, List.countP_singleton, if_pos hp, h.w]
    · show (s.1.set s.2 xs[i]).take (s.2 + 1) = _
      have hw : s.2 < (s.1.set s.2 xs[i]).length := by
        rw [List.length_set]
        exact lt_of_le_of_lt h.w_le hlen
      rw [List.take_succ_eq_append_getElem hw, List.getElem_set_self, List.take_set_of_le le_rfl,
        h.front, htake, List.filter_append, List.filter_cons_of_pos hp, List.filter_nil]
    · show (s.1.set s.2 xs[i]).drop (i + 1) = _
      rw [List.drop_set_of_lt (Nat.lt_succ_of_le h.w_le), htail]
  · rw [step_of_neg hget hp]
    refine ⟨?_, ?_, htail⟩
    · rw [htake, List.countP_append, List.countP_singleton, if_neg hp, Nat.add_zero, h.w]
    · rw [htake, List.filter_append, List.filter_cons_of_neg hp, List.filter_nil, List.append_nil,
        h.front]

theorem compacted_run (hi : i ≤ xs.length) :
    Compacted p xs i ((List.range i).foldl (Compaction.step p) (xs, 0)) := by
  induction i with
  | zero => exact ⟨rfl, rfl, rfl⟩
  | succ i ih =>
    rw [List.range_succ, List.foldl_append]
    exact (ih (Nat.le_of_succ_le hi)).step hi

/-- **Compaction**: the front is what is kept, in its order. -/
theorem run_take (p : α → Bool) (xs : List α) : (run p xs).1.take (run p xs).2 = xs.filter p := by
  have hall : Compacted p xs xs.length (run p xs) := compacted_run le_rfl
  rw [hall.front, List.take_length]

end Compaction
