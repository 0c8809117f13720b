import Mathlib

/-! # Streams that are read to their end

  A descriptor is the list of what `read` returns on it, one answer after the
  other; behind the last one `read` returns 0. How the bytes are cut is part of
  that list.

  What is counted in a stream are maximal runs: a maximal run of `p` is a
  stretch of positions where `p` holds that cannot be extended on either side.
  Each is given by its first position, a `Start` (`runCount_eq`), and
  `runCount_snoc` counts them as a list grows at its end.
-/

/-! ### Reading -/

namespace Reads

abbrev Bytes := List UInt8

/-- What a successful `read` into a buffer of `size` bytes returns before the end. -/
structure Chunk (size : ℕ) where
  bytes : Bytes
  ne_nil : bytes ≠ []
  length_le : bytes.length ≤ size

/-- One answer of `read` before the end. -/
inductive Read (size : ℕ) where
  | got (c : Chunk size)
  | error

abbrev Fd (size : ℕ) := List (Read size)

variable {size : ℕ}

theorem Chunk.length_pos (c : Chunk size) : 0 < c.bytes.length := List.length_pos_iff.mpr c.ne_nil

/-- A descriptor on which no `read` fails. -/
def Fd.ofChunks (chunks : List (Chunk size)) : Fd size := chunks.map .got

/-- The bytes of the chunks, one after the other. -/
def stream (chunks : List (Chunk size)) : Bytes := chunks.flatMap Chunk.bytes

@[simp] theorem stream_nil : stream ([] : List (Chunk size)) = [] := rfl
@[simp] theorem stream_cons (c : Chunk size) (cs : List (Chunk size)) :
    stream (c :: cs) = c.bytes ++ stream cs := List.flatMap_cons
@[simp] theorem stream_append (cs cs' : List (Chunk size)) :
    stream (cs ++ cs') = stream cs ++ stream cs' := List.flatMap_append

end Reads

/-! ### Maximal runs -/

namespace Runs

variable {α : Type*} (p : α → Bool) (s : List α)

/-- `p` holds at position `k` of `s`. -/
def Holds (k : ℕ) : Prop := (s[k]?).any p = true

instance (k : ℕ) : Decidable (Holds p s k) := inferInstanceAs (Decidable (_ = true))

/-- The positions from `r.1` up to `r.2` are a run of `p`, and none longer. -/
structure MaximalRun (r : ℕ × ℕ) : Prop where
  lt : r.1 < r.2
  holds : ∀ k, r.1 ≤ k → k < r.2 → Holds p s k
  left : r.1 = 0 ∨ ¬ Holds p s (r.1 - 1)
  right : ¬ Holds p s r.2

/-- The number of maximal runs. -/
noncomputable def runCount : ℕ := {r | MaximalRun p s r}.ncard

/-- A run begins at `k`. -/
def Start (k : ℕ) : Prop := Holds p s k ∧ (k = 0 ∨ ¬ Holds p s (k - 1))

instance (k : ℕ) : Decidable (Start p s k) := inferInstanceAs (Decidable (_ ∧ _))

/-- The positions where a run begins. -/
def starts : Finset ℕ := (Finset.range s.length).filter (Start p s)

variable {p s}

theorem Holds.lt {k : ℕ} (h : Holds p s k) : k < s.length := by
  by_contra hk
  rw [Holds, List.getElem?_eq_none (not_lt.mp hk)] at h
  cases h

/-- Where a run begins, it ends somewhere. -/
theorem Start.exists_run {k : ℕ} (h : Start p s k) : ∃ j, MaximalRun p s (k, j) := by
  have hend : ∃ j, k < j ∧ ¬ Holds p s j :=
    ⟨s.length, h.1.lt, fun hlen => lt_irrefl _ hlen.lt⟩
  refine ⟨Nat.find hend, (Nat.find_spec hend).1, fun i hi hlt => ?_, h.2, (Nat.find_spec hend).2⟩
  by_contra hno
  rcases Nat.lt_or_eq_of_le hi with hki | rfl
  · exact Nat.find_min hend hlt ⟨hki, hno⟩
  · exact hno h.1

theorem MaximalRun.start {r : ℕ × ℕ} (h : MaximalRun p s r) : Start p s r.1 :=
  ⟨h.holds _ le_rfl h.lt, h.left⟩

/-- Two maximal runs that begin at one position end at one position. -/
theorem MaximalRun.eq {r r' : ℕ × ℕ} (h : MaximalRun p s r) (h' : MaximalRun p s r')
    (heq : r.1 = r'.1) : r = r' := by
  have hle : ∀ {r r' : ℕ × ℕ}, MaximalRun p s r → MaximalRun p s r' → r.1 = r'.1 → r.2 ≤ r'.2 := by
    intro r r' h h' heq
    by_contra hlt
    exact h'.right (h.holds _ (heq ▸ h'.lt.le) (not_le.mp hlt))
  exact Prod.ext heq (le_antisymm (hle h h' heq) (hle h' h heq.symm))

/-- Runs are counted by where they begin. -/
theorem runCount_eq : runCount p s = (starts p s).card := by
  have himage : Prod.fst '' {r | MaximalRun p s r} = (starts p s : Set ℕ) := by
    ext k
    simp only [Set.mem_image, Set.mem_ofPred_eq, starts, Finset.coe_filter, Finset.mem_range]
    constructor
    · rintro ⟨r, hr, rfl⟩
      exact ⟨hr.start.1.lt, hr.start⟩
    · rintro ⟨_, hk⟩
      obtain ⟨j, hj⟩ := hk.exists_run
      exact ⟨(k, j), hj, rfl⟩
  have hinj : Set.InjOn Prod.fst {r | MaximalRun p s r} := fun r hr r' hr' => hr.eq hr'
  rw [runCount, ← hinj.ncard_image, himage, Set.ncard_coe_finset]

/-- `p` holds of the last element, if there is one. -/
def atEnd (p : α → Bool) (s : List α) : Bool := s.getLast?.any p

theorem holds_append {t : List α} {k : ℕ} (hk : k < s.length) :
    Holds p (s ++ t) k ↔ Holds p s k := by
  rw [Holds, Holds, List.getElem?_append_left hk]

theorem start_append {t : List α} {k : ℕ} (hk : k < s.length) :
    Start p (s ++ t) k ↔ Start p s k := by
  rw [Start, Start, holds_append hk, holds_append (Nat.lt_of_le_of_lt (Nat.sub_le k 1) hk)]

/-- A new element begins a run if `p` holds of it and not of the one before. -/
theorem start_last {c : α} : Start p (s ++ [c]) s.length ↔ p c = true ∧ atEnd p s = false := by
  have hlast : Holds p (s ++ [c]) s.length ↔ p c = true := by simp [Holds]
  rw [Start, hlast]
  refine and_congr_right fun _ => ?_
  rcases List.eq_nil_or_concat s with rfl | ⟨l, a, rfl⟩
  · simp [atEnd]
  · simp [atEnd, Holds]

@[simp] theorem runCount_nil : runCount p [] = 0 := by
  rw [runCount_eq]
  rfl

theorem runCount_snoc (c : α) :
    runCount p (s ++ [c]) = runCount p s + if p c = true ∧ atEnd p s = false then 1 else 0 := by
  have hold : (Finset.range s.length).filter (Start p (s ++ [c])) = starts p s :=
    Finset.filter_congr fun k hk => start_append (Finset.mem_range.mp hk)
  rw [runCount_eq, runCount_eq, starts, List.length_append, List.length_singleton,
    Finset.range_add_one, Finset.filter_insert, hold]
  by_cases hc : p c = true ∧ atEnd p s = false
  · have hnew : s.length ∉ starts p s := by simp [starts]
    rw [if_pos (start_last.mpr hc), if_pos hc, Finset.card_insert_of_notMem hnew]
  · rw [if_neg (mt start_last.mp hc), if_neg hc, Nat.add_zero]

@[simp] theorem atEnd_nil : atEnd p [] = false := rfl
@[simp] theorem atEnd_snoc (c : α) : atEnd p (s ++ [c]) = p c := by simp [atEnd]

end Runs
