import OsLessons.PizzaHoare.Termination
import OsLessons.Restaurant.Spec

/-! # The kitchen is a restaurant

  What the monitor counts and where the threads are is a state of the
  restaurant. `kitchen_finish_cooking` is two of its events, waiting and the
  mutex are none.
-/

namespace PizzaHoare

open Lts Monitor Restaurant

variable {cfg : Config}

/-! ### The restaurant in the program -/

/-- The cook with `n` pizzas to make. -/
def CookPc.view (n : ℕ) : CookPc → Cook
  | .loop i | .starting i => .idle i
  | .cooking i | .finishing i => .cooking i
  | .leaving | .returned => .idle n

def CourierPc.view : CourierPc → Courier
  | .loop _ | .taking _ => .free
  | .delivering _ => .carrying
  | .returned _ => .home

def shop (s : cfg.State) : Shop cfg.P cfg.K where
  cook id := (cookPc s id).view (cfg.pizzas_to_make id)
  courier id := (courierPc s id).view
  ready := s.data.ready_pizzas.toNat
  taken := (∑ id, (courierPc s id).taken).toNat

theorem shop_init (cfg : Config) : shop (init cfg) = opening cfg.P cfg.K := by
  refine Shop.ext rfl rfl rfl ?_
  simp [shop, init, courierPc, CourierPc.taken, opening]

theorem sum_taken_nonneg (s : cfg.State) : 0 ≤ ∑ id, (courierPc s id).taken := by
  refine Finset.sum_nonneg fun id _ => ?_
  cases courierPc s id <;> exact Int.natCast_nonneg _

theorem sum_atTable_view (s : cfg.State) :
    ((∑ id, ((shop s).cook id).atTable : ℕ) : ℤ) = ∑ id, (cookPc s id).atTable := by
  push_cast
  refine Finset.sum_congr rfl fun id _ => ?_
  show (((cookPc s id).view (cfg.pizzas_to_make id)).atTable : ℤ) = _
  cases cookPc s id <;> rfl

/-! ### Steps of a cook -/

section cook
variable {s s' : cfg.State} {id : Fin cfg.P}

theorem shop_of_cook (hother : ∀ id' ≠ id, cookPc s' id' = cookPc s id')
    (hcouriers : courierPc s' = courierPc s) (cook : Cook)
    (hid : (cookPc s' id).view (cfg.pizzas_to_make id) = cook) :
    shop s' = { shop s with ready := s'.data.ready_pizzas.toNat }.setCook id cook := by
  refine Shop.eq_setCook hid (fun id' hne => ?_) ?_ rfl ?_
  · show (cookPc s' id').view _ = (cookPc s id').view _
    rw [hother id' hne]
  · show (fun c => (courierPc s' c).view) = fun c => (courierPc s c).view
    rw [hcouriers]
  · show (∑ c, (courierPc s' c).taken).toNat = (∑ c, (courierPc s c).taken).toNat
    rw [hcouriers]

/-- A cook goes home with its last pizza. -/
theorem made_of_quit {n i : ℕ} (h : (cook_thread n (.loop i)).Leads s s' .leaving) : n ≤ i := by
  by_contra hi
  simp only [cook_thread, not_le.mp hi, ↓reduceIte] at h
  cases h.2

theorem cook_refines (hs : (kitchen cfg).Reachable s)
    (hother : ∀ id' ≠ id, cookPc s' id' = cookPc s id') (hcouriers : courierPc s' = courierPc s)
    (hleads : (cook_thread (cfg.pizzas_to_make id) (cookPc s id)).Leads s s' (cookPc s' id)) :
    ∃ ms, (restaurant cfg.K cfg.N_tables cfg.pizzas_to_make).Run (shop s) ms (shop s') := by
  have hrange := inRange hs (.cook id)
  change InRange cfg (.cook id) (cookPc s id) at hrange
  have hmove := cook_leads hleads
  have hshop := shop_of_cook hother hcouriers
  have hview : (shop s).cook id = (cookPc s id).view (cfg.pizzas_to_make id) := rfl
  -- what the restaurant does not see
  have hsame : (cookPc s' id).view (cfg.pizzas_to_make id) =
      (cookPc s id).view (cfg.pizzas_to_make id) →
      s'.data.ready_pizzas = s.data.ready_pizzas →
      ∃ ms, (restaurant cfg.K cfg.N_tables cfg.pizzas_to_make).Run (shop s) ms (shop s') := by
    intro hcook hready
    have heq : shop s' = shop s := by
      rw [hshop _ hcook, hready]
      exact Shop.setCook_self id
    rw [heq]
    exact ⟨[], .nil _⟩
  generalize hpc : cookPc s id = l at *
  generalize hpc' : cookPc s' id = l' at *
  cases hmove with
  | enter hi hdata | wait hfull hdata | ready hdata => exact hsame rfl (by rw [hdata])
  | @quit i hdata =>
    have hle := made_of_quit hleads
    have hlt : i ≤ cfg.pizzas_to_make id := hrange
    refine hsame ?_ (by rw [hdata])
    rw [CookPc.view, CookPc.view, le_antisymm hle hlt]
  | leave hdata => exact hsame rfl (by rw [hdata]; rfl)
  | @start i hfree hdata =>
    have htables := (books hs).tables
    have hnonneg := (sound hs).free
    have hsum := sum_atTable_view s
    refine ⟨[.begin id], .single ?_⟩
    have heq : shop s' = (shop s).setCook id (.cooking i) := by
      rw [hshop _ rfl, hdata]
      rfl
    rw [heq]
    exact .begin hview hrange (by omega)
  | @finish i hdata =>
    have hnonneg := (sound hs).ready
    have hready : s'.data.ready_pizzas.toNat = (shop s).ready + 1 := by
      rw [hdata]
      show (s.data.ready_pizzas + 1).toNat = s.data.ready_pizzas.toNat + 1
      omega
    have heq : shop s' = ({ shop s with ready := (shop s).ready + 1 }.setCook id
        (.clearing i)).setCook id (.idle (i + 1)) := by
      rw [hshop _ rfl, hready, Shop.setCook_setCook]
      rfl
    rw [heq]
    exact ⟨[.ready id, .clear id],
      .cons (.ready hview) (.single (.clear (Shop.setCook_cook_self id _)))⟩

end cook

/-! ### Steps of a courier -/

section courier
variable {s s' : cfg.State} {c : Fin cfg.K}

theorem shop_of_courier (hcooks : cookPc s' = cookPc s)
    (hother : ∀ c' ≠ c, courierPc s' c' = courierPc s c') (courier : Courier)
    (hc : (courierPc s' c).view = courier) :
    shop s' = { shop s with ready := (shop s').ready, taken := (shop s').taken }.setCourier c
      courier := by
  refine Shop.eq_setCourier hc (fun c' hne => ?_) ?_ rfl rfl
  · show (courierPc s' c').view = (courierPc s c').view
    rw [hother c' hne]
  · show (fun id => (cookPc s' id).view _) = fun id => (cookPc s id).view _
    rw [hcooks]

/-- What couriers take is taken from what is ready. -/
theorem taken_of_books (hs : (kitchen cfg).Reachable s) (hs' : (kitchen cfg).Reachable s')
    (hcooks : cookPc s' = cookPc s) :
    s'.data.ready_pizzas + ∑ id, (courierPc s' id).taken =
      s.data.ready_pizzas + ∑ id, (courierPc s id).taken := by
  rw [(books hs').pizzas, (books hs).pizzas, hcooks]

theorem courier_refines (hs : (kitchen cfg).Reachable s) (hs' : (kitchen cfg).Reachable s')
    (hcooks : cookPc s' = cookPc s) (hother : ∀ c' ≠ c, courierPc s' c' = courierPc s c')
    (hmove : CourierMove s.data s'.data (courierPc s c) (courierPc s' c)) :
    ∃ ms, (restaurant cfg.K cfg.N_tables cfg.pizzas_to_make).Run (shop s) ms (shop s') := by
  have htaken := taken_of_books hs hs' hcooks
  have hbooks := books hs
  have hnonneg := (sound hs).ready
  have hshop := shop_of_courier hcooks hother
  have hview : (shop s).courier c = (courierPc s c).view := rfl
  -- nothing is taken
  have hkeeps : ∀ courier, (courierPc s' c).view = courier →
      s'.data.ready_pizzas = s.data.ready_pizzas →
      shop s' = (shop s).setCourier c courier := by
    intro courier hc hready
    rw [hshop courier hc]
    have hsum : (shop s').taken = (shop s).taken := by
      show (∑ id, (courierPc s' id).taken).toNat = (∑ id, (courierPc s id).taken).toNat
      rw [hready] at htaken
      rw [Int.add_left_cancel htaken]
    have hready' : (shop s').ready = (shop s).ready := congrArg Int.toNat hready
    rw [hsum, hready']
  generalize hpc : courierPc s c = l at *
  generalize hpc' : courierPc s' c = l' at *
  cases hmove with
  | enter hdata | wait hdata =>
    rw [hkeeps .free rfl (by rw [hdata]), ← show (shop s).courier c = .free from hview,
      Shop.setCourier_self]
    exact ⟨[], .nil _⟩
  | home hnone hactive hdata =>
    rw [hkeeps .home rfl (by rw [hdata])]
    refine ⟨[.goHome c], .single (.goHome hview ?_ fun id => ?_)⟩
    · exact congrArg Int.toNat hnone
    · show (cookPc s id).view _ = _
      rw [hbooks.cooks_returned hactive id]
      rfl
  | take hgo hleft hdata =>
    have hactive : 0 ≤ s.data.active_cooks := by
      rw [hbooks.cooks]
      exact Finset.sum_nonneg fun id _ => active_nonneg _
    have hsum := sum_taken_nonneg s
    rw [hdata] at htaken
    change s.data.ready_pizzas - 1 + _ = _ at htaken
    have hready' : (shop s').ready = (shop s).ready - 1 := by
      show s'.data.ready_pizzas.toNat = s.data.ready_pizzas.toNat - 1
      rw [hdata]
      show (s.data.ready_pizzas - 1).toNat = _
      omega
    have htaken' : (shop s').taken = (shop s).taken + 1 := by
      show (∑ id, (courierPc s' id).taken).toNat = (∑ id, (courierPc s id).taken).toNat + 1
      omega
    rw [hshop _ rfl, hready', htaken']
    refine ⟨[.take c], .single (.take hview ?_)⟩
    show 0 < s.data.ready_pizzas.toNat
    omega
  | deliver hdata =>
    rw [hkeeps .free rfl (by rw [hdata])]
    exact ⟨[.deliver c], .single (.deliver hview)⟩

end courier

/-! ### The refinement -/

theorem refines (cfg : Config) :
    Refinement (kitchen cfg) (restaurant cfg.K cfg.N_tables cfg.pizzas_to_make) shop where
  init := by
    rintro _ rfl
    exact shop_init cfg
  step s e s' hs hstep := by
    have hs' := hs.step hstep
    rcases Monitor.Step.leads hstep with ⟨hdata, hthread⟩ | ⟨t, hframe, hleads⟩
    · -- a thread has only been woken
      have heq : shop s' = shop s := by
        have hcook : cookPc s' = cookPc s := funext fun id => congrFun hthread (.cook id)
        have hcourier : courierPc s' = courierPc s :=
          funext fun c => congrFun hthread (.courier c)
        unfold shop
        rw [hdata, hcook, hcourier]
      rw [heq]
      exact ⟨[], .nil _⟩
    · cases t with
      | cook id =>
        refine cook_refines hs (fun id' hne => ?_) (funext fun c => ?_) hleads
        · exact hframe (.cook id') (by simpa using hne)
        · exact hframe (.courier c) (by simp)
      | courier c =>
        refine courier_refines hs hs' (funext fun id => ?_) (fun c' hne => ?_)
          (courier_leads hleads)
        · exact hframe (.cook id) (by simp)
        · exact hframe (.courier c') (by simpa using hne)

/-- **The kitchen is a restaurant**: every run of the threads is part of a day of
    it, and one that has come to its end is a whole day, with five events for every
    pizza and one for every courier. -/
theorem kitchen_is_restaurant (cfg : Config) {s : cfg.State}
    {es : List (Event cfg.Thread Unit)} (h : (kitchen cfg).Run (init cfg) es s) :
    ∃ day, (restaurant cfg.K cfg.N_tables cfg.pizzas_to_make).Run (opening cfg.P cfg.K) day
        (shop s) ∧
      (0 < cfg.N_tables → 0 < cfg.K → (∀ e, ¬ e.isSpurious → ¬ (kitchen cfg).Enabled s e) →
        shop s = closing cfg.K cfg.pizzas_to_make ∧ day.length = 5 * cfg.total_pizzas + cfg.K) := by
  have hinit : (kitchen cfg).Reachable (init cfg) := .init rfl
  obtain ⟨day, hday⟩ := (refines cfg).run h hinit
  rw [shop_init] at hday
  refine ⟨day, hday, fun hN hK hquiet => ?_⟩
  have hclosed := closed_of_quiet hN hK (h.reachable hinit) hquiet
  have hclosing : shop s = closing cfg.K cfg.pizzas_to_make := by
    refine (fair (hday.reachable (.init rfl))).eq_closing hK fun c => ?_
    obtain ⟨taken, hhome⟩ := hclosed.couriers c
    show (courierPc s c).view = .home
    rw [hhome]
    rfl
  rw [hclosing] at hday
  exact ⟨hclosing, length_of_closing hday⟩

theorem kitchen_is_restaurant_solo : ∃ s day,
    (kitchen soloConfig).Run (init soloConfig) soloRun s ∧
    (restaurant 1 1 soloConfig.pizzas_to_make).Run (opening 1 1) day (shop s) ∧
    shop s = closing 1 soloConfig.pizzas_to_make ∧ day.length = 6 := by
  obtain ⟨s, hsolo, hquiet⟩ := solo_quiet
  obtain ⟨day, hday, hclosed⟩ := kitchen_is_restaurant soloConfig hsolo
  exact ⟨s, day, hsolo, hday, hclosed (by decide) (by decide) hquiet⟩

end PizzaHoare
