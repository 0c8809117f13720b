import Mathlib

/-! # Strings in memory

  A memory maps addresses to bytes. A C string at an address is the bytes up to
  the next zero (`StrAt`). In-place algorithms overwrite a part of the memory;
  `Keeps lo hi` says that nothing else has changed, and `Laid lo hi` that
  strings lie one after another in a part, so that they survive what happens
  outside of it.

  `isspace`, `skip_spaces` and `strlen` are the C functions in the C locale. A
  loop takes a bound on its length and is `none` without one that is large
  enough.
-/

namespace CString

abbrev Mem : Type := ℕ → UInt8

/-- A memory that holds `s` at 0, and zeros. -/
def Mem.holding (s : List UInt8) : Mem := fun i => s.getD i 0

/-- `m[i] = c` -/
def Mem.set (m : Mem) (i : ℕ) (c : UInt8) : Mem := Function.update m i c

@[simp] theorem Mem.set_self (m : Mem) (i : ℕ) (c : UInt8) : m.set i c i = c :=
  Function.update_self ..

theorem Mem.set_ne (m : Mem) {i j : ℕ} (c : UInt8) (h : j ≠ i) : m.set i c j = m j :=
  Function.update_of_ne h ..

/-! ### Strings -/

/-- The bytes from `p` on are `s`. -/
def BytesAt (m : Mem) (p : ℕ) : List UInt8 → Prop
  | [] => True
  | c :: s => m p = c ∧ BytesAt m (p + 1) s

/-- The C string at `p` is `s`. -/
structure StrAt (m : Mem) (p : ℕ) (s : List UInt8) : Prop where
  bytes : BytesAt m p s
  no_nul : (0 : UInt8) ∉ s
  nul : m (p + s.length) = 0

variable {m m' m'' : Mem} {p lo hi : ℕ} {s t : List UInt8} {c : UInt8}

theorem BytesAt.congr (h : BytesAt m p s) (hm : ∀ i, p ≤ i → i < p + s.length → m' i = m i) :
    BytesAt m' p s := by
  induction s generalizing p with
  | nil => trivial
  | cons c s ih =>
    simp only [List.length_cons] at hm
    refine ⟨?_, ih h.2 fun i hi hlt => hm i (by omega) (by omega)⟩
    rw [hm p le_rfl (by omega)]
    exact h.1

theorem BytesAt.append (h : BytesAt m p (s ++ t)) :
    BytesAt m p s ∧ BytesAt m (p + s.length) t := by
  induction s generalizing p with
  | nil => exact ⟨trivial, h⟩
  | cons c s ih =>
    obtain ⟨hs, ht⟩ := ih h.2
    refine ⟨⟨h.1, hs⟩, ?_⟩
    rw [List.length_cons, Nat.add_comm s.length 1, ← Nat.add_assoc]
    exact ht

theorem StrAt.congr (h : StrAt m p s) (hm : ∀ i, p ≤ i → i ≤ p + s.length → m' i = m i) :
    StrAt m' p s where
  bytes := h.bytes.congr fun i hi hlt => hm i hi (by omega)
  no_nul := h.no_nul
  nul := by rw [hm _ (by omega) le_rfl, h.nul]

theorem StrAt.tail (h : StrAt m p (c :: s)) : m p = c ∧ c ≠ 0 ∧ StrAt m (p + 1) s := by
  obtain ⟨hc, hs⟩ := List.ne_and_not_mem_of_not_mem_cons h.no_nul
  refine ⟨h.bytes.1, fun heq => hc heq.symm, h.bytes.2, hs, ?_⟩
  have hnul := h.nul
  rw [List.length_cons, Nat.add_comm s.length 1, ← Nat.add_assoc] at hnul
  exact hnul

/-- A suffix of a string is a string. -/
theorem StrAt.drop (h : StrAt m p (s ++ t)) : StrAt m (p + s.length) t where
  bytes := h.bytes.append.2
  no_nul := fun hmem => h.no_nul (List.mem_append_right _ hmem)
  nul := by
    have hnul := h.nul
    rwa [List.length_append, ← Nat.add_assoc] at hnul

/-- The string ends at the first zero. -/
theorem StrAt.eq_nil_iff (h : StrAt m p s) : m p = 0 ↔ s = [] := by
  cases s with
  | nil => exact ⟨fun _ => rfl, fun _ => h.nul⟩
  | cons c s =>
    obtain ⟨hc, hne, -⟩ := h.tail
    rw [hc]
    exact ⟨fun heq => absurd heq hne, fun heq => by cases heq⟩

/-- A prefix becomes a string when a zero is stored behind it. -/
theorem StrAt.cut (h : StrAt m p (s ++ t)) : StrAt (m.set (p + s.length) 0) p s where
  bytes := h.bytes.append.1.congr fun i _ hlt => Mem.set_ne _ _ (by omega)
  no_nul := fun hmem => h.no_nul (List.mem_append_left _ hmem)
  nul := Mem.set_self ..

/-! ### Storing and reading strings -/

/-- Store bytes from `p` on. -/
def Mem.write (m : Mem) (p : ℕ) : List UInt8 → Mem
  | [] => m
  | c :: s => (m.set p c).write (p + 1) s

theorem Mem.write_of_lt {i : ℕ} (h : i < p) : m.write p s i = m i := by
  induction s generalizing m p with
  | nil => rfl
  | cons c s ih =>
    rw [Mem.write, ih (by omega), Mem.set_ne _ _ (by omega)]

theorem Mem.write_getElem {i : ℕ} (h : i < s.length) : m.write p s (p + i) = s[i] := by
  induction s generalizing m p i with
  | nil => cases h
  | cons c s ih =>
    cases i with
    | zero =>
      show (m.set p c).write (p + 1) s p = c
      rw [Mem.write_of_lt (Nat.lt_succ_self p), Mem.set_self]
    | succ i =>
      have hrec := ih (m := m.set p c) (p := p + 1) (Nat.lt_of_succ_lt_succ h)
      rw [Mem.write, List.getElem_cons_succ, ← hrec]
      congr 1
      omega

/-- What has been stored is a string up to its first zero. -/
theorem strAt_of_bytes (h : ∀ (i : ℕ) (hi : i < s.length), m (p + i) = s[i])
    (hnul : m (p + s.length) = 0) : StrAt m p (s.takeWhile (· ≠ 0)) := by
  induction s generalizing p with
  | nil => exact ⟨trivial, by simp, hnul⟩
  | cons c s ih =>
    have hc : m p = c := h 0 (Nat.succ_pos _)
    by_cases hzero : c = 0
    · subst hzero
      exact ⟨trivial, by simp, hc⟩
    · rw [List.takeWhile_cons_of_pos (by simpa using hzero)]
      have hrec : StrAt m (p + 1) (s.takeWhile (· ≠ 0)) := by
        apply ih
        · intro i hi
          have hnext := h (i + 1) (Nat.succ_lt_succ hi)
          rw [List.getElem_cons_succ] at hnext
          rw [← hnext]
          congr 1
          omega
        · rw [← hnul, List.length_cons]
          congr 1
          omega
      refine ⟨⟨hc, hrec.bytes⟩, ?_, ?_⟩
      · rw [List.mem_cons, not_or]
        exact ⟨fun heq => hzero heq.symm, hrec.no_nul⟩
      · rw [List.length_cons, Nat.add_comm _ 1, ← Nat.add_assoc]
        exact hrec.nul

/-- The C string at `p`. -/
def read_str : ℕ → Mem → ℕ → Option (List UInt8)
  | 0, _, _ => none
  | fuel + 1, m, p => if m p = 0 then some [] else (read_str fuel m (p + 1)).map (m p :: ·)

theorem read_str_eq {fuel : ℕ} (h : StrAt m p s) (hfuel : s.length < fuel) :
    read_str fuel m p = some s := by
  induction fuel generalizing p s with
  | zero => cases hfuel
  | succ fuel ih =>
    cases s with
    | nil =>
      have hnul : m p = 0 := h.nul
      simp [read_str, hnul]
    | cons c s =>
      obtain ⟨hc, hne, hs⟩ := h.tail
      simp [read_str, hc, hne, ih hs (Nat.lt_of_succ_lt_succ hfuel)]

/-! ### Frames -/

/-- Only the addresses from `lo` to `hi` have changed. -/
def Keeps (lo hi : ℕ) (m m' : Mem) : Prop := ∀ i, i < lo ∨ hi < i → m' i = m i

theorem Keeps.refl (lo hi : ℕ) (m : Mem) : Keeps lo hi m m := fun _ _ => rfl

theorem Keeps.trans (h : Keeps lo hi m m') (h' : Keeps lo hi m' m'') : Keeps lo hi m m'' :=
  fun i hi => (h' i hi).trans (h i hi)

theorem Keeps.mono {lo' hi' : ℕ} (h : Keeps lo hi m m') (hlo : lo' ≤ lo) (hhi : hi ≤ hi') :
    Keeps lo' hi' m m' := fun i hi => h i (by omega)

theorem Keeps.set {i : ℕ} (hlo : lo ≤ i) (hhi : i ≤ hi) : Keeps lo hi m (m.set i c) :=
  fun _ hj => Mem.set_ne _ _ (by omega)

/-- A string outside of what has changed is still there. -/
theorem Keeps.strAt (h : Keeps lo hi m m') (hs : StrAt m p s) (hp : p + s.length < lo ∨ hi < p) :
    StrAt m' p s := hs.congr fun i _ _ => h i (by omega)

/-- Strings one after another, within the addresses from `lo` to `hi`. -/
inductive Laid (m : Mem) (hi : ℕ) : ℕ → List ℕ → List (List UInt8) → Prop where
  | nil {lo : ℕ} : Laid m hi lo [] []
  | cons {lo p : ℕ} {ps : List ℕ} {s : List UInt8} {ss : List (List UInt8)} : lo ≤ p → p + s.length ≤ hi → StrAt m p s →
      Laid m hi (p + s.length + 1) ps ss → Laid m hi lo (p :: ps) (s :: ss)

variable {ps : List ℕ} {ss : List (List UInt8)}

theorem Laid.mono {lo' hi' : ℕ} (h : Laid m hi lo ps ss) (hlo : lo' ≤ lo) (hhi : hi ≤ hi') :
    Laid m hi' lo' ps ss := by
  induction h generalizing lo' with
  | nil => exact .nil
  | cons hle hend hs _ ih => exact .cons (hlo.trans hle) (hend.trans hhi) hs (ih le_rfl)

theorem Laid.append {lo' hi' : ℕ} {ps' : List ℕ} {ss' : List (List UInt8)}
    (h : Laid m hi lo ps ss) (h' : Laid m hi' lo' ps' ss') (hlo : lo ≤ lo') (hhi : hi < lo')
    (hle : hi ≤ hi') : Laid m hi' lo (ps ++ ps') (ss ++ ss') := by
  induction h with
  | nil => exact h'.mono hlo le_rfl
  | cons hp hend hs _ ih => exact .cons hp (hend.trans hle) hs (ih (by omega))

theorem Laid.keeps {a b : ℕ} (h : Laid m hi lo ps ss) (hm : Keeps a b m m')
    (hab : hi < a ∨ b < lo) : Laid m' hi lo ps ss := by
  induction h with
  | nil => exact .nil
  | @cons lo p ps s ss hle hend hs _ ih =>
    exact .cons hle hend (hm.strAt hs (by omega)) (ih (by omega))

/-- The strings as they are read through their pointers. -/
theorem Laid.forall₂ (h : Laid m hi lo ps ss) : List.Forall₂ (StrAt m) ps ss := by
  induction h with
  | nil => exact .nil
  | cons _ _ hs _ ih => exact .cons hs ih

/-! ### C functions -/

/-- `isspace`: space, tab, newline, vertical tab, form feed, carriage return. -/
def isspace (c : UInt8) : Bool := c = 32 || (9 ≤ c && c ≤ 13)

@[simp] theorem isspace_zero : isspace 0 = false := rfl

/-- `while (isspace(*p)) p++` -/
def skip_spaces : ℕ → Mem → ℕ → Option ℕ
  | 0, _, _ => none
  | fuel + 1, m, p => if isspace (m p) then skip_spaces fuel m (p + 1) else some p

def strlen : ℕ → Mem → ℕ → Option ℕ
  | 0, _, _ => none
  | fuel + 1, m, p => if m p = 0 then some 0 else (strlen fuel m (p + 1)).map (· + 1)

/-- Stops behind the leading whitespace. -/
theorem skip_spaces_eq {fuel : ℕ} (h : StrAt m p s) (hfuel : s.length < fuel) :
    skip_spaces fuel m p = some (p + (s.takeWhile isspace).length) := by
  induction fuel generalizing p s with
  | zero => cases hfuel
  | succ fuel ih =>
    cases s with
    | nil =>
      have hnul : m p = 0 := h.nul
      simp [skip_spaces, hnul]
    | cons c s =>
      obtain ⟨hc, -, hs⟩ := h.tail
      by_cases hspace : isspace c
      · have hrec := ih hs (Nat.lt_of_succ_lt_succ hfuel)
        simp [skip_spaces, hc, hspace, hrec]
        omega
      · simp [skip_spaces, hc, hspace]

/-- What is left is the string without its leading whitespace. -/
theorem StrAt.skip (h : StrAt m p s) :
    StrAt m (p + (s.takeWhile isspace).length) (s.dropWhile isspace) := by
  apply StrAt.drop
  rwa [List.takeWhile_append_dropWhile]

theorem strlen_eq {fuel : ℕ} (h : StrAt m p s) (hfuel : s.length < fuel) :
    strlen fuel m p = some s.length := by
  induction fuel generalizing p s with
  | zero => cases hfuel
  | succ fuel ih =>
    cases s with
    | nil =>
      have hnul : m p = 0 := h.nul
      simp [strlen, hnul]
    | cons c s =>
      obtain ⟨hc, hne, hs⟩ := h.tail
      simp [strlen, hc, hne, ih hs (Nat.lt_of_succ_lt_succ hfuel)]

end CString
