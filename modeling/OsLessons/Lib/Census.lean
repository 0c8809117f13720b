import Mathlib

/-! # Weighing a population of processes

  A system of processes is a map `f : C → P` from process identifiers to
  program points. `census w f` adds up the weight `w c (f c)` of every
  process; with weights `0` and `1` it counts the processes at some points.
  One step of one process changes the census by the difference of two
  weights (`census_update`), which is what ties shared counters and
  semaphores to program points.
-/

namespace Census

/-- A sum over `cs` where one member has moved to `q`: its weight at the old
    place is gone, the one at the new place is there. -/
theorem sum_update {C M : Type*} {P : C → Type*} [DecidableEq C] [AddCommMonoid M]
    (w : ∀ c, P c → M) {cs : Finset C} {c : C} (hc : c ∈ cs) (f : ∀ c, P c) (q : P c) :
    ∑ d ∈ cs, w d (Function.update f c q d) + w c (f c) = ∑ d ∈ cs, w d (f d) + w c q := by
  -- all the other members weigh the same before and after
  have hrest : ∑ d ∈ cs.erase c, w d (Function.update f c q d) = ∑ d ∈ cs.erase c, w d (f d) := by
    apply Finset.sum_congr rfl
    intro d hd
    rw [Function.update_of_ne (Finset.ne_of_mem_erase hd)]
  rw [← Finset.add_sum_erase _ _ hc, ← Finset.add_sum_erase _ _ hc, Function.update_self, hrest]
  abel

variable {C P : Type*} [Fintype C]

/-- Total weight of a population. -/
def census (w : C → P → ℤ) (f : C → P) : ℤ := ∑ c, w c (f c)

/-- One process moving to `q` changes the census by its own weight only. -/
theorem census_update [DecidableEq C] (w : C → P → ℤ) (f : C → P) (c : C) (q : P) :
    census w (Function.update f c q) = census w f - w c (f c) + w c q := by
  have hsum := sum_update w (Finset.mem_univ c) f q
  unfold census
  omega

theorem census_nonneg {w : C → P → ℤ} {f : C → P} (h : ∀ c, 0 ≤ w c (f c)) :
    0 ≤ census w f :=
  Finset.sum_nonneg fun c _ => h c

/-- One process weighs at most the whole population. -/
theorem le_census {w : C → P → ℤ} {f : C → P} (h : ∀ c, 0 ≤ w c (f c)) (c : C) :
    w c (f c) ≤ census w f :=
  Finset.single_le_sum (f := fun d => w d (f d)) (fun d _ => h d) (Finset.mem_univ c)

theorem census_mono {w v : C → P → ℤ} {f g : C → P} (h : ∀ c, w c (f c) ≤ v c (g c)) :
    census w f ≤ census v g :=
  Finset.sum_le_sum fun c _ => h c

theorem census_add (w v : C → P → ℤ) (f : C → P) :
    census (fun c p => w c p + v c p) f = census w f + census v f :=
  Finset.sum_add_distrib

theorem census_zero {w : C → P → ℤ} {f : C → P} (h : ∀ c, w c (f c) = 0) :
    census w f = 0 :=
  Finset.sum_eq_zero fun c _ => h c

/-- With weights zero and one the census counts. -/
theorem census_eq_card {Q : C → P → Prop} [∀ c p, Decidable (Q c p)] (f : C → P) :
    census (fun c p => if Q c p then 1 else 0) f =
      (Finset.univ.filter fun c => Q c (f c)).card := by
  simp [census]

/-- A positive census has a process of positive weight. -/
theorem exists_of_census_pos {w : C → P → ℤ} {f : C → P} (h : 0 < census w f) :
    ∃ c, 0 < w c (f c) := by
  by_contra hno
  simp only [not_exists, not_lt] at hno
  have : census w f ≤ 0 := Finset.sum_nonpos fun c _ => hno c
  omega

/-- Two processes of weight one need a census of at least two. -/
theorem two_le_census [DecidableEq C] {w : C → P → ℤ} {f : C → P}
    (h : ∀ c, 0 ≤ w c (f c)) {c d : C} (hcd : c ≠ d)
    (hc : 1 ≤ w c (f c)) (hd : 1 ≤ w d (f d)) : 2 ≤ census w f := by
  have hsplit := Finset.add_sum_erase Finset.univ (fun e => w e (f e)) (Finset.mem_univ c)
  have hrest : w d (f d) ≤ ∑ e ∈ Finset.univ.erase c, w e (f e) :=
    Finset.single_le_sum (f := fun e => w e (f e)) (fun e _ => h e)
      (Finset.mem_erase.mpr ⟨hcd.symm, Finset.mem_univ d⟩)
  unfold census
  omega

end Census
