import Mathlib

/-! # Descriptor tables

  The descriptor table of a process: what every descriptor refers to, with
  the calls that change it. A new descriptor is the lowest one that is closed.

  - `alloc_eq_some`, `pipe_eq_some`, `dup2_eq_some`: what a successful call does.
  - `redirect_eq_some`: opening a file onto a descriptor that is in use.
-/

namespace Posix

/-- The open descriptors of a process; all of them are below its limit. -/
@[ext] structure FdTable (α : Type*) where
  slot : ℕ → Option α
  limit : ℕ
  closed : ∀ fd, limit ≤ fd → slot fd = none

namespace FdTable

variable {α β : Type*}

/-- Change what the descriptors refer to, not which of them are open. -/
def map (f : α → β) (t : FdTable α) : FdTable β where
  slot fd := (t.slot fd).map f
  limit := t.limit
  closed fd h := by rw [t.closed fd h, Option.map_none]

@[simp] theorem map_slot (f : α → β) (t : FdTable α) (fd : ℕ) :
    (t.map f).slot fd = (t.slot fd).map f := rfl
@[simp] theorem map_limit (f : α → β) (t : FdTable α) : (t.map f).limit = t.limit := rfl

/-- The lowest closed descriptor. -/
def lowest (t : FdTable α) : Option ℕ := (List.range t.limit).find? fun fd => (t.slot fd).isNone

/-- `close`; a descriptor that is not open stays so. -/
def close (t : FdTable α) (fd : ℕ) : FdTable α where
  slot := Function.update t.slot fd none
  limit := t.limit
  closed fd' h := by
    rcases eq_or_ne fd' fd with rfl | hne
    · exact Function.update_self ..
    · rw [Function.update_of_ne hne, t.closed fd' h]

/-- Let a descriptor below the limit refer to `d`. -/
def set (t : FdTable α) (fd : ℕ) (d : α) (hfd : fd < t.limit) : FdTable α where
  slot := Function.update t.slot fd (some d)
  limit := t.limit
  closed fd' h := by rw [Function.update_of_ne (by omega), t.closed fd' h]

theorem lowest_eq_some {t : FdTable α} {fd : ℕ} (h : t.lowest = some fd) :
    fd < t.limit ∧ t.slot fd = none := by
  have hmem := List.mem_of_find?_eq_some h
  have hnone := List.find?_some h
  exact ⟨List.mem_range.mp hmem, by simpa using hnone⟩

/-- All descriptors below the lowest closed one are open. -/
theorem open_of_lt_lowest {t : FdTable α} {fd fd' : ℕ} (h : t.lowest = some fd) (hlt : fd' < fd) :
    t.slot fd' ≠ none := by
  intro hnone
  have hfind := List.find?_range_eq_some.mp h
  have hopen := hfind.2.2 fd' hlt
  rw [hnone] at hopen
  cases hopen

/-- `open`: a new descriptor for `d`; `none` if there is no descriptor left. -/
def alloc (t : FdTable α) (d : α) : Option (ℕ × FdTable α) :=
  match h : t.lowest with
  | none => none
  | some fd => some (fd, t.set fd d (lowest_eq_some h).1)

/-- `pipe`: two new descriptors, or none. -/
def pipe (t : FdTable α) (r w : α) : Option ((ℕ × ℕ) × FdTable α) :=
  (t.alloc r).bind fun a => (a.2.alloc w).map fun b => ((a.1, b.1), b.2)

/-- `dup2`: `new` refers to what `old` refers to. -/
def dup2 (t : FdTable α) (old new : ℕ) : Option (FdTable α) :=
  if h : new < t.limit then (t.slot old).map fun d => t.set new d h else none

@[simp] theorem close_slot (t : FdTable α) (fd : ℕ) :
    (t.close fd).slot = Function.update t.slot fd none := rfl
@[simp] theorem close_limit (t : FdTable α) (fd : ℕ) : (t.close fd).limit = t.limit := rfl

theorem alloc_eq_some {t t' : FdTable α} {d : α} {fd : ℕ} (h : t.alloc d = some (fd, t')) :
    t.slot fd = none ∧ t'.slot = Function.update t.slot fd (some d) ∧ t'.limit = t.limit := by
  unfold alloc at h
  split at h
  · cases h
  · next fd' hlow =>
    cases h
    exact ⟨(lowest_eq_some hlow).2, rfl, rfl⟩

theorem lowest_of_alloc {t t' : FdTable α} {d : α} {fd : ℕ} (h : t.alloc d = some (fd, t')) :
    t.lowest = some fd := by
  unfold alloc at h
  split at h
  · cases h
  · next hlow =>
    cases h
    exact hlow

theorem dup2_eq_some {t t' : FdTable α} {old new : ℕ} (h : t.dup2 old new = some t') :
    t'.slot = Function.update t.slot new (t.slot old) ∧ t'.limit = t.limit := by
  unfold dup2 at h
  split at h
  · obtain ⟨d, hd, heq⟩ := Option.map_eq_some_iff.mp h
    cases heq
    exact ⟨by rw [hd]; rfl, rfl⟩
  · cases h

/-- The ends of a new pipe were closed before and differ. -/
theorem pipe_eq_some {t t' : FdTable α} {r w : α} {a b : ℕ} (h : t.pipe r w = some ((a, b), t')) :
    t.slot a = none ∧ t.slot b = none ∧ a ≠ b ∧ t'.limit = t.limit ∧
      t'.slot = Function.update (Function.update t.slot a (some r)) b (some w) := by
  obtain ⟨⟨a', t₁⟩, hr, hrest⟩ := Option.bind_eq_some_iff.mp h
  obtain ⟨⟨b', t₂⟩, hw, heq⟩ := Option.map_eq_some_iff.mp hrest
  obtain ⟨rfl, rfl, rfl⟩ : a' = a ∧ b' = b ∧ t₂ = t' := by simpa [and_assoc] using heq
  obtain ⟨ha, hslot₁, hlimit₁⟩ := alloc_eq_some hr
  obtain ⟨hb, hslot₂, hlimit₂⟩ := alloc_eq_some hw
  -- the first end is open when the second one is allocated
  have hne : a' ≠ b' := by
    rintro rfl
    rw [hslot₁, Function.update_self] at hb
    cases hb
  refine ⟨ha, ?_, hne, hlimit₂.trans hlimit₁, ?_⟩
  · rwa [hslot₁, Function.update_of_ne hne.symm] at hb
  · rw [hslot₂, hslot₁]

/-- The ends of a new pipe are the lowest closed descriptors. -/
theorem lowest_of_pipe {t t' : FdTable α} {r w : α} {a b : ℕ} (h : t.pipe r w = some ((a, b), t')) :
    a < t.limit ∧ b < t.limit ∧ (∀ fd < a, t.slot fd ≠ none) ∧
      ∀ fd < b, fd ≠ a → t.slot fd ≠ none := by
  obtain ⟨⟨a', t₁⟩, hr, hrest⟩ := Option.bind_eq_some_iff.mp h
  obtain ⟨⟨b', t₂⟩, hw, heq⟩ := Option.map_eq_some_iff.mp hrest
  obtain ⟨rfl, rfl, rfl⟩ : a' = a ∧ b' = b ∧ t₂ = t' := by simpa [and_assoc] using heq
  have hlow := lowest_of_alloc hr
  have hlow₁ := lowest_of_alloc hw
  obtain ⟨-, hslot₁, hlimit₁⟩ := alloc_eq_some hr
  refine ⟨(lowest_eq_some hlow).1, hlimit₁ ▸ (lowest_eq_some hlow₁).1,
    fun fd hlt => open_of_lt_lowest hlow hlt, fun fd hlt hne => ?_⟩
  have hopen := open_of_lt_lowest hlow₁ hlt
  rwa [hslot₁, Function.update_of_ne hne] at hopen

/-- Open `d` and let the open descriptor `fd` refer to it: `open`, `dup2`, `close`. -/
theorem redirect_eq_some {t t₁ t₂ : FdTable α} {d : α} {fd n : ℕ} (hfd : t.slot fd ≠ none)
    (hopen : t.alloc d = some (n, t₁)) (hdup : t₁.dup2 n fd = some t₂) :
    (t₂.close n).slot = Function.update t.slot fd (some d) ∧ (t₂.close n).limit = t.limit := by
  obtain ⟨hn, hslot₁, hlimit₁⟩ := alloc_eq_some hopen
  obtain ⟨hslot₂, hlimit₂⟩ := dup2_eq_some hdup
  -- `open` gives a closed descriptor, and `fd` is open
  have hne : n ≠ fd := by
    rintro rfl
    exact hfd hn
  refine ⟨?_, by rw [close_limit, hlimit₂, hlimit₁]⟩
  funext fd'
  rw [close_slot, hslot₂, hslot₁, Function.update_self]
  rcases eq_or_ne fd' n with rfl | hn'
  · rw [Function.update_self, Function.update_of_ne hne, hn]
  · rw [Function.update_of_ne hn']
    rcases eq_or_ne fd' fd with rfl | hfd'
    · rw [Function.update_self, Function.update_self]
    · rw [Function.update_of_ne hfd', Function.update_of_ne hn', Function.update_of_ne hfd']

end FdTable

end Posix
