import OsLessons.Lib.Census
import OsLessons.Lib.Transition

/-! # What the two pizzerias are for

  `P` cooks share `N` tables, and `K` couriers take what is ready. A courier may
  go home when all pizzas of all cooks have been taken. `lesson7_pizza.c` does
  this with semaphores and stop values in a queue, `lesson8_pizza_hoare.c` with
  a monitor.
-/

namespace Restaurant

open Lts

/-! ### The restaurant -/

/-- What a cook does, and the number of its pizza. -/
inductive Cook where
  | idle (i : ℕ)
  /-- at a table, with pizza `i` in the making -/
  | cooking (i : ℕ)
  /-- at a table, with pizza `i` ready -/
  | clearing (i : ℕ)
  deriving DecidableEq

inductive Courier where
  | free
  | carrying
  | home
  deriving DecidableEq

@[ext]
structure Shop (P K : ℕ) where
  cook : Fin P → Cook
  courier : Fin K → Courier
  ready : ℕ
  taken : ℕ

inductive Event (P K : ℕ) where
  | begin (id : Fin P)
  | ready (id : Fin P)
  | clear (id : Fin P)
  | take (c : Fin K)
  | deliver (c : Fin K)
  | goHome (c : Fin K)
  deriving DecidableEq

variable {P K : ℕ}

namespace Cook

def made : Cook → ℕ
  | .idle i | .cooking i => i
  | .clearing i => i + 1

def begun : Cook → ℕ
  | .idle i => i
  | .cooking i | .clearing i => i + 1

def atTable : Cook → ℕ
  | .idle _ => 0
  | .cooking _ | .clearing _ => 1

end Cook

namespace Shop

def setCook (r : Shop P K) (id : Fin P) (cook : Cook) : Shop P K :=
  { r with cook := Function.update r.cook id cook }

def setCourier (r : Shop P K) (c : Fin K) (courier : Courier) : Shop P K :=
  { r with courier := Function.update r.courier c courier }

/-- All pizzas are made, and nobody is at a table. -/
def AllMade (pizzas : Fin P → ℕ) (r : Shop P K) : Prop := ∀ id, r.cook id = .idle (pizzas id)

end Shop

inductive Step (N : ℕ) (pizzas : Fin P → ℕ) (r : Shop P K) : Event P K → Shop P K → Prop where
  | begin {id i} (old : r.cook id = .idle i) (more : i < pizzas id)
      (table : ∑ id, (r.cook id).atTable < N) :
      Step N pizzas r (.begin id) (r.setCook id (.cooking i))
  | ready {id i} (old : r.cook id = .cooking i) :
      Step N pizzas r (.ready id) ({ r with ready := r.ready + 1 }.setCook id (.clearing i))
  | clear {id i} (old : r.cook id = .clearing i) :
      Step N pizzas r (.clear id) (r.setCook id (.idle (i + 1)))
  | take {c} (old : r.courier c = .free) (pizza : 0 < r.ready) :
      Step N pizzas r (.take c)
        ({ r with ready := r.ready - 1, taken := r.taken + 1 }.setCourier c .carrying)
  | deliver {c} (old : r.courier c = .carrying) :
      Step N pizzas r (.deliver c) (r.setCourier c .free)
  | goHome {c} (old : r.courier c = .free) (none : r.ready = 0) (made : r.AllMade pizzas) :
      Step N pizzas r (.goHome c) (r.setCourier c .home)

def opening (P K : ℕ) : Shop P K where
  cook _ := .idle 0
  courier _ := .free
  ready := 0
  taken := 0

/-- All pizzas have been taken, and everybody has gone home. -/
def closing (K : ℕ) (pizzas : Fin P → ℕ) : Shop P K where
  cook id := .idle (pizzas id)
  courier _ := .home
  ready := 0
  taken := ∑ id, pizzas id

def restaurant (K N : ℕ) (pizzas : Fin P → ℕ) : System (Shop P K) (Event P K) where
  init r := r = opening P K
  step := Step N pizzas

/-! ### Who is changed -/

namespace Shop

variable {r r' : Shop P K}

@[simp] theorem setCook_cook_self (id : Fin P) (cook : Cook) :
    (r.setCook id cook).cook id = cook := by
  simp only [setCook, Function.update_self]

@[simp] theorem setCook_courier (id : Fin P) (cook : Cook) :
    (r.setCook id cook).courier = r.courier := rfl

@[simp] theorem setCook_taken (id : Fin P) (cook : Cook) :
    (r.setCook id cook).taken = r.taken := rfl

@[simp] theorem setCourier_cook (c : Fin K) (courier : Courier) :
    (r.setCourier c courier).cook = r.cook := rfl

@[simp] theorem setCourier_taken (c : Fin K) (courier : Courier) :
    (r.setCourier c courier).taken = r.taken := rfl

theorem eq_setCook {id : Fin P} {cook : Cook} (hid : r'.cook id = cook)
    (hother : ∀ id' ≠ id, r'.cook id' = r.cook id') (hcourier : r'.courier = r.courier)
    (hready : r'.ready = r.ready) (htaken : r'.taken = r.taken) : r' = r.setCook id cook := by
  refine Shop.ext ?_ hcourier hready htaken
  funext id'
  rcases eq_or_ne id' id with rfl | hne
  · rw [hid, setCook_cook_self]
  · exact (hother id' hne).trans (Function.update_of_ne hne ..).symm

theorem eq_setCourier {c : Fin K} {courier : Courier} (hc : r'.courier c = courier)
    (hother : ∀ c' ≠ c, r'.courier c' = r.courier c') (hcook : r'.cook = r.cook)
    (hready : r'.ready = r.ready) (htaken : r'.taken = r.taken) :
    r' = r.setCourier c courier := by
  refine Shop.ext hcook ?_ hready htaken
  funext c'
  rcases eq_or_ne c' c with rfl | hne
  · rw [hc]
    exact (Function.update_self c' courier r.courier).symm
  · exact (hother c' hne).trans (Function.update_of_ne hne ..).symm

theorem setCook_self (id : Fin P) : r.setCook id (r.cook id) = r := by
  rw [setCook, Function.update_eq_self]

theorem setCook_setCook (id : Fin P) (cook cook' : Cook) :
    (r.setCook id cook).setCook id cook' = r.setCook id cook' := by
  simp only [setCook, Function.update_idem]

theorem setCourier_self (c : Fin K) : r.setCourier c (r.courier c) = r := by
  rw [setCourier, Function.update_eq_self]

/-- Setting one cook changes a sum over the cooks at this place. -/
theorem sum_setCook (w : Cook → ℕ) (id : Fin P) (cook : Cook) :
    ∑ id', w ((r.setCook id cook).cook id') + w (r.cook id) = ∑ id', w (r.cook id') + w cook :=
  Census.sum_update (fun _ => w) (Finset.mem_univ id) r.cook cook

theorem sum_setCourier (w : Courier → ℕ) (c : Fin K) (courier : Courier) :
    ∑ c', w ((r.setCourier c courier).courier c') + w (r.courier c) =
      ∑ c', w (r.courier c') + w courier :=
  Census.sum_update (fun _ => w) (Finset.mem_univ c) r.courier courier

end Shop

/-! ### What the restaurant guarantees -/

variable {N : ℕ} {pizzas : Fin P → ℕ} {r r' : Shop P K} {e : Event P K}

/-- Every pizza that is made is ready or has been taken, no cook begins too many,
    tables are not shared, and who has gone home has left nothing behind. -/
structure Fair (N : ℕ) (pizzas : Fin P → ℕ) (r : Shop P K) : Prop where
  made : ∑ id, (r.cook id).made = r.ready + r.taken
  begun : ∀ id, (r.cook id).begun ≤ pizzas id
  tables : ∑ id, (r.cook id).atTable ≤ N
  home : ∀ c, r.courier c = .home → r.ready = 0 ∧ r.AllMade pizzas

theorem fair_opening : Fair N pizzas (opening P K) where
  made := by simp [opening, Cook.made]
  begun _ := Nat.zero_le _
  tables := by simp [opening, Cook.atTable]
  home _ h := by cases h

/-- As long as a cook has something to do, nobody has gone home. -/
theorem Fair.nobody_home (h : Fair N pizzas r) (id : Fin P) (hid : r.cook id ≠ .idle (pizzas id))
    (c : Fin K) : r.courier c ≠ .home :=
  fun hhome => hid ((h.home c hhome).2 id)

/-- A cook goes on within its number of pizzas. -/
theorem Fair.begun_setCook (h : Fair N pizzas r) {id : Fin P} (cook : Cook)
    (hcook : cook.begun ≤ pizzas id) (id' : Fin P) :
    ((r.setCook id cook).cook id').begun ≤ pizzas id' := by
  show (Function.update r.cook id cook id').begun ≤ pizzas id'
  rcases eq_or_ne id' id with rfl | hne
  · rwa [Function.update_self]
  · rw [Function.update_of_ne hne]
    exact h.begun id'

/-- A courier that is not sent home leaves those at home as they are. -/
theorem home_of_setCourier {c c' : Fin K} {courier : Courier} (hcourier : courier ≠ .home)
    (hhome : (r.setCourier c courier).courier c' = .home) : r.courier c' = .home := by
  change Function.update r.courier c courier c' = .home at hhome
  rcases eq_or_ne c' c with rfl | hne
  · rw [Function.update_self] at hhome
    exact absurd hhome hcourier
  · rwa [Function.update_of_ne hne] at hhome

theorem Fair.step (h : Fair N pizzas r) (hstep : Step N pizzas r e r') : Fair N pizzas r' := by
  have hmade := h.made
  have htables := h.tables
  cases hstep with
  | @begin id i old more table =>
    have hm := r.sum_setCook Cook.made id (.cooking i)
    have ht := r.sum_setCook Cook.atTable id (.cooking i)
    rw [old] at hm ht
    simp only [Cook.made, Cook.atTable] at hm ht
    refine ⟨?_, h.begun_setCook _ more, ?_, fun c hc => ?_⟩
    · exact (Nat.add_right_cancel hm).trans hmade
    · simp only [Cook.atTable] at htables table ⊢
      omega
    · refine absurd hc (h.nobody_home id (fun hidle => ?_) c)
      cases old.symm.trans hidle
      exact lt_irrefl _ more
  | @ready id i old =>
    have hm := r.sum_setCook Cook.made id (.clearing i)
    have ht := r.sum_setCook Cook.atTable id (.clearing i)
    rw [old] at hm ht
    have hbegun := h.begun id
    rw [old] at hbegun
    refine ⟨?_, h.begun_setCook (.clearing i) hbegun, ?_, fun c hc => ?_⟩
    · show ∑ id', ((r.setCook id (.clearing i)).cook id').made = r.ready + 1 + r.taken
      simp only [Cook.made] at hm hmade ⊢
      omega
    · exact (Nat.add_right_cancel ht).trans_le htables
    · exact absurd hc (h.nobody_home id (by rw [old]; exact Cook.noConfusion) c)
  | @clear id i old =>
    have hm := r.sum_setCook Cook.made id (.idle (i + 1))
    have ht := r.sum_setCook Cook.atTable id (.idle (i + 1))
    rw [old] at hm ht
    have hbegun := h.begun id
    rw [old] at hbegun
    refine ⟨?_, h.begun_setCook (.idle (i + 1)) hbegun, ?_, fun c hc => ?_⟩
    · exact (Nat.add_right_cancel hm).trans hmade
    · simp only [Cook.atTable] at ht htables ⊢
      omega
    · exact absurd hc (h.nobody_home id (by rw [old]; exact Cook.noConfusion) c)
  | @take c old pizza =>
    refine ⟨?_, h.begun, h.tables, fun c' hc' => ?_⟩
    · show ∑ id, (r.cook id).made = r.ready - 1 + (r.taken + 1)
      omega
    · have hnone := (h.home c' (home_of_setCourier (fun h => by cases h) hc')).1
      omega
  | @deliver c old =>
    exact ⟨h.made, h.begun, h.tables, fun c' hc' =>
      h.home c' (home_of_setCourier (fun h => by cases h) hc')⟩
  | @goHome c old none made =>
    exact ⟨h.made, h.begun, h.tables, fun _ _ => ⟨none, made⟩⟩

theorem fair (h : (restaurant K N pizzas).Reachable r) : Fair N pizzas r := by
  apply System.invariant _ _ h
  · rintro _ rfl
    exact fair_opening
  · intro r e r' hr hstep
    exact hr.step hstep

/-- When all couriers have gone home, the restaurant is closed. -/
theorem Fair.eq_closing (h : Fair N pizzas r) (hK : 0 < K) (hhome : ∀ c, r.courier c = .home) :
    r = closing K pizzas := by
  obtain ⟨hready, hall⟩ := h.home ⟨0, hK⟩ (hhome _)
  refine Shop.ext (funext hall) (funext hhome) hready ?_
  have hmade := h.made
  rw [hready, zero_add] at hmade
  rw [← hmade]
  exact Finset.sum_congr rfl fun id _ => by rw [hall id, Cook.made]

/-! ### How long it is open -/

namespace Cook

/-- The events of a cook so far. -/
def events : Cook → ℕ
  | .idle i => 3 * i
  | .cooking i => 3 * i + 1
  | .clearing i => 3 * i + 2

end Cook

namespace Courier

/-- It has taken a pizza and not delivered it. -/
def carries : Courier → ℕ
  | .carrying => 1
  | .free | .home => 0

def isHome : Courier → ℕ
  | .home => 1
  | .free | .carrying => 0

end Courier

/-- Three events for every pizza made, two for every pizza delivered, and one for
    everybody who has gone home. -/
def Shop.Counted (r : Shop P K) (n : ℕ) : Prop :=
  n + ∑ c, (r.courier c).carries =
    ∑ id, (r.cook id).events + 2 * r.taken + ∑ c, (r.courier c).isHome

theorem Shop.Counted.setCook {n m : ℕ} (h : r.Counted n) {id : Fin P} {cook : Cook}
    (hcook : cook.events + n = (r.cook id).events + m) : (r.setCook id cook).Counted m := by
  have hsum := r.sum_setCook Cook.events id cook
  unfold Shop.Counted at h ⊢
  simp only [setCook_courier, setCook_taken]
  omega

theorem Shop.Counted.setCourier {n m : ℕ} (h : r.Counted n) {c : Fin K} {courier : Courier}
    (hcourier : courier.isHome + (r.courier c).carries + n =
      (r.courier c).isHome + courier.carries + m) : (r.setCourier c courier).Counted m := by
  have hcarry := r.sum_setCourier Courier.carries c courier
  have hhome := r.sum_setCourier Courier.isHome c courier
  unfold Shop.Counted at h ⊢
  simp only [setCourier_cook, setCourier_taken]
  omega

theorem counted_step {n : ℕ} (h : r.Counted n) (hstep : Step N pizzas r e r') :
    r'.Counted (n + 1) := by
  cases hstep with
  | begin old | clear old =>
    refine h.setCook ?_
    rw [old]
    simp only [Cook.events]
    omega
  | @ready id i old =>
    have hready : ({ r with ready := r.ready + 1 } : Shop P K).Counted n := h
    refine hready.setCook ?_
    simp only [old, Cook.events]
    omega
  | take old pizza =>
    have htaken : ({ r with ready := r.ready - 1, taken := r.taken + 1 } : Shop P K).Counted
        (n + 2) := by
      unfold Shop.Counted at h ⊢
      dsimp only
      omega
    refine htaken.setCourier ?_
    simp only [old, Courier.isHome, Courier.carries]
    omega
  | deliver old | goHome old =>
    refine h.setCourier ?_
    simp only [old, Courier.isHome, Courier.carries]
    omega

theorem counted_opening : (opening P K).Counted 0 := by
  simp [Shop.Counted, opening, Courier.carries, Courier.isHome, Cook.events]

/-- **Every run counts its events.** -/
theorem counted {es : List (Event P K)} (h : (restaurant K N pizzas).Run r es r') {n : ℕ}
    (hr : r.Counted n) : r'.Counted (n + es.length) := by
  induction h generalizing n with
  | nil s => exact hr
  | @cons s s₁ s' e es hstep _ ih =>
    have hcounted := ih (counted_step hr hstep)
    rwa [Nat.add_assoc, Nat.add_comm 1] at hcounted

/-- A whole day has five events for every pizza, and one for every courier. -/
theorem length_of_closing {es : List (Event P K)}
    (h : (restaurant K N pizzas).Run (opening P K) es (closing K pizzas)) :
    es.length = 5 * ∑ id, pizzas id + K := by
  have hcounted := counted h counted_opening
  simp only [Shop.Counted, closing, Courier.carries, Courier.isHome, Cook.events,
    ← Finset.mul_sum, Finset.sum_const, Finset.card_univ, Fintype.card_fin] at hcounted
  simp only [smul_eq_mul, mul_zero, mul_one] at hcounted
  omega

end Restaurant
