import OsLessons.Pizzeria.Termination
import OsLessons.Restaurant.Spec

/-! # The pizzeria is a restaurant

  A pizza is ready between the critical section of `queue_push` and that of
  `queue_pop`. A courier is on its way home once it has read a stop value: the
  stop values stand behind all pizzas, so nothing is left then.
-/

namespace Pizzeria

open Lts Semaphore Restaurant

variable {cfg : Config}

/-! ### The restaurant in the program -/

/-- The cook with `n` pizzas to make. -/
def CookPc.view (n : ℕ) : CookPc → Cook
  | .unborn => .idle 0
  | .loop i => .idle i
  | .cooking i => .cooking i
  | .pushing i pc => if pc.done = 1 then .clearing i else .cooking i
  | .leaving i => .clearing i
  | .returned => .idle n

/-- The courier with the value it has read. -/
def Courier.holding (value : ℤ) : Courier := if value < 0 then .home else .carrying

def CourierPc.view : CourierPc → Courier
  | .popping (.postMutex value) | .popping (.postSlots value) | .popping (.returned value) =>
      Courier.holding value
  | .delivering _ | .counting _ => .carrying
  | .returned => .home
  | .unborn | .loop | .popping _ | .counted _ => .free

/-- How many entries of a history are pizzas. -/
def pizzas {T : Type*} (h : List (T × ℤ)) : ℕ := h.countP fun e => 0 ≤ e.2

def shop (s : cfg.State) : Shop cfg.P cfg.K where
  cook id := (cookPc s id).view (cfg.pizzas_to_make id)
  courier id := (courierPc s id).view
  ready := pizzas s.data.queue_pizzas.pushed - pizzas s.data.queue_pizzas.popped
  taken := pizzas s.data.queue_pizzas.popped

theorem shop_init (cfg : Config) (buf : ℕ → ℤ) : shop (init cfg buf) = opening cfg.P cfg.K :=
  Shop.ext rfl rfl rfl rfl

theorem sum_atTable_view (s : cfg.State) :
    ((∑ id, ((shop s).cook id).atTable : ℕ) : ℤ) = ∑ id, (cookPc s id).atTable := by
  push_cast
  refine Finset.sum_congr rfl fun id _ => ?_
  show (((cookPc s id).view (cfg.pizzas_to_make id)).atTable : ℤ) = _
  cases cookPc s id with
  | pushing i pc => cases pc <;> rfl
  | unborn | loop | cooking | leaving | returned => rfl

/-! ### The queue -/

theorem pizzas_eq {T : Type*} (h : List (T × ℤ)) :
    pizzas h = (h.map Prod.snd).countP fun v => 0 ≤ v := by
  rw [List.countP_map]
  rfl

theorem pizzas_snoc {T : Type*} (h : List (T × ℤ)) (e : T × ℤ) :
    pizzas (h ++ [e]) = pizzas h + if 0 ≤ e.2 then 1 else 0 := by
  unfold pizzas
  rw [List.countP_append, List.countP_singleton]
  simp only [decide_eq_true_eq]

theorem popped_take {s : cfg.State} (h : (pizzeria cfg).Reachable s) :
    s.data.queue_pizzas.popped.map Prod.snd =
      (s.data.queue_pizzas.pushed.map Prod.snd).take s.data.queue_pizzas.popped.length :=
  (ring (seen_reachable h)).popped

/-- No more is popped than is pushed, of pizzas and of stop values. -/
theorem count_popped_le {s : cfg.State} (h : (pizzeria cfg).Reachable s) :
    pizzas s.data.queue_pizzas.popped ≤ pizzas s.data.queue_pizzas.pushed ∧
      stops s.data.queue_pizzas.popped ≤ stops s.data.queue_pizzas.pushed := by
  rw [pizzas_eq, pizzas_eq, stops_eq, stops_eq, popped_take h]
  exact ⟨(List.take_sublist _ _).countP_le, (List.take_sublist _ _).countP_le⟩

/-- Once a stop value has been popped, all pizzas have been. -/
theorem pizzas_of_stopped {s : cfg.State} (h : (pizzeria cfg).Reachable s)
    (hstop : 0 < stops s.data.queue_pizzas.popped) :
    pizzas s.data.queue_pizzas.popped = pizzas s.data.queue_pizzas.pushed := by
  obtain ⟨⟨before, rest, hsplit, hbefore, hrest⟩, -⟩ := flow h
  have hpopped := popped_take h
  generalize s.data.queue_pizzas.popped.length = m at hpopped
  have hnone : ∀ l : List ℤ, (∀ v ∈ l, v < 0) → (l.countP fun v => 0 ≤ v) = 0 := by
    intro l hl
    rw [List.countP_eq_zero]
    intro v hv
    have := hl v hv
    simpa using this
  -- a stop value is not among the first
  have hlen : before.length ≤ m := by
    by_contra hlt
    rw [stops_eq, hpopped, hsplit, List.take_append_of_le_length (by omega),
      countP_pizzas fun v hv => hbefore v (List.mem_of_mem_take hv)] at hstop
    exact lt_irrefl _ hstop
  rw [pizzas_eq, pizzas_eq, hpopped, hsplit, List.take_append, List.take_of_length_le hlen,
    List.countP_append, List.countP_append, hnone rest hrest,
    hnone _ fun v hv => hrest v (List.mem_of_mem_take hv)]

/-- Once a stop value has been pushed, all cooks have returned. -/
theorem returned_of_stopped {s : cfg.State} (h : (pizzeria cfg).Reachable s)
    (hstop : 0 < stops s.data.queue_pizzas.pushed) (id : Fin cfg.P) : cookPc s id = .returned := by
  by_contra hid
  have := stops_of_running (books h) (order h) hid
  omega

/-! ### Steps of a cook -/

section cook
variable {s s' : cfg.State} {id : Fin cfg.P}

theorem shop_of_cook (hother : ∀ id' ≠ id, cookPc s' id' = cookPc s id')
    (hcouriers : courierPc s' = courierPc s)
    (hpopped : s'.data.queue_pizzas.popped = s.data.queue_pizzas.popped) {cook : Cook}
    (hid : (cookPc s' id).view (cfg.pizzas_to_make id) = cook) :
    shop s' = { shop s with ready := (shop s').ready }.setCook id cook := by
  refine Shop.eq_setCook hid (fun id' hne => ?_) ?_ rfl ?_
  · show (cookPc s' id').view _ = (cookPc s id').view _
    rw [hother id' hne]
  · show (fun c => (courierPc s' c).view) = fun c => (courierPc s c).view
    rw [hcouriers]
  · exact congrArg pizzas hpopped

theorem cook_refines (hs : (pizzeria cfg).Reachable s)
    (hother : ∀ id' ≠ id, cookPc s' id' = cookPc s id') (hcouriers : courierPc s' = courierPc s)
    (hleads : (cook_thread cfg id (cookPc s id)).Leads (threads cfg) s s' (cookPc s' id)) :
    ∃ ms, (restaurant cfg.K cfg.N_tables cfg.pizzas_to_make).Run (shop s) ms (shop s') := by
  have hrange := inRange hs (.cook id)
  change InRange cfg (.cook id) (cookPc s id) at hrange
  have hview : (shop s).cook id = (cookPc s id).view (cfg.pizzas_to_make id) := rfl
  -- as long as nothing is pushed
  have hkeeps : ∀ cook, (cookPc s' id).view (cfg.pizzas_to_make id) = cook →
      s'.data = s.data → shop s' = (shop s).setCook id cook := by
    intro cook hid hdata
    have hready : (shop s').ready = (shop s).ready := by
      unfold shop
      rw [hdata]
    rw [shop_of_cook hother hcouriers (by rw [hdata]) hid, hready]
  have hsame : (cookPc s' id).view (cfg.pizzas_to_make id) =
      (cookPc s id).view (cfg.pizzas_to_make id) → s'.data = s.data →
      ∃ ms, (restaurant cfg.K cfg.N_tables cfg.pizzas_to_make).Run (shop s) ms (shop s') := by
    intro hid hdata
    rw [hkeeps _ hid hdata, ← hview, Shop.setCook_self]
    exact ⟨[], .nil _⟩
  generalize hpc : cookPc s id = l at *
  generalize hpc' : cookPc s' id = l' at *
  cases l with
  | unborn =>
    obtain ⟨a, hf⟩ := hleads
    obtain ⟨-, heq⟩ := Option.ite_none_right_eq_some.mp hf
    obtain ⟨hdata, rfl⟩ := Prod.mk.inj (Option.some.inj heq)
    exact hsame rfl hdata.symm
  | loop i =>
    by_cases hi : i < cfg.pizzas_to_make id
    · simp only [cook_thread, hi, ↓reduceIte] at hleads
      obtain ⟨hsem, hdata, rfl⟩ := hleads
      have htables := (books hs).tables
      have hsum := sum_atTable_view s
      rw [hkeeps _ rfl hdata]
      exact ⟨[.begin id], .single (.begin hview hi (by omega))⟩
    · simp only [cook_thread, hi, ↓reduceIte] at hleads
      obtain ⟨a, hf⟩ := hleads
      obtain ⟨hdata, rfl⟩ := Prod.mk.inj (Option.some.inj hf)
      have hle : i ≤ cfg.pizzas_to_make id := hrange
      refine hsame ?_ hdata.symm
      rw [CookPc.view, CookPc.view, le_antisymm hle (not_lt.mp hi)]
  | cooking i =>
    obtain ⟨a, hf⟩ := hleads
    obtain ⟨hdata, rfl⟩ := Prod.mk.inj (Option.some.inj hf)
    exact hsame rfl hdata.symm
  | pushing i pc =>
    cases pc with
    | waitSlots | waitMutex =>
      obtain ⟨-, hdata, rfl⟩ := hleads
      exact hsame rfl hdata
    | store =>
      obtain ⟨a, hf⟩ := hleads
      obtain ⟨hdata, rfl⟩ := Prod.mk.inj (Option.some.inj hf)
      have hle := (count_popped_le hs).1
      have hpushed : pizzas s'.data.queue_pizzas.pushed =
          pizzas s.data.queue_pizzas.pushed + 1 := by
        rw [← hdata]
        exact (pizzas_snoc _ _).trans (by rw [if_pos (not_lt.mp (pizza_id_nonneg _ _))])
      have hpopped : s'.data.queue_pizzas.popped = s.data.queue_pizzas.popped := by
        rw [← hdata]
        rfl
      have hready : (shop s').ready = (shop s).ready + 1 := by
        show pizzas s'.data.queue_pizzas.pushed - pizzas s'.data.queue_pizzas.popped =
          pizzas s.data.queue_pizzas.pushed - pizzas s.data.queue_pizzas.popped + 1
        rw [hpushed, hpopped]
        omega
      rw [shop_of_cook hother hcouriers hpopped rfl, hready, hpc']
      exact ⟨[.ready id], .single (.ready hview)⟩
    | postMutex =>
      obtain ⟨hdata, rfl⟩ := hleads
      exact hsame rfl hdata
    | postItems =>
      obtain ⟨hdata, rfl⟩ := hleads
      exact hsame rfl hdata
    | returned => exact hleads.elim
  | leaving i =>
    obtain ⟨hdata, rfl⟩ := hleads
    rw [hkeeps _ rfl hdata]
    exact ⟨[.clear id], .single (.clear hview)⟩
  | returned => exact hleads.elim

end cook

/-! ### Steps of a courier -/

section courier
variable {s s' : cfg.State} {c : Fin cfg.K}

theorem shop_of_courier (hcooks : cookPc s' = cookPc s)
    (hother : ∀ c' ≠ c, courierPc s' c' = courierPc s c') {courier : Courier}
    (hc : (courierPc s' c).view = courier) :
    shop s' = { shop s with ready := (shop s').ready, taken := (shop s').taken }.setCourier c
      courier := by
  refine Shop.eq_setCourier hc (fun c' hne => ?_) ?_ rfl rfl
  · show (courierPc s' c').view = (courierPc s c').view
    rw [hother c' hne]
  · show (fun id => (cookPc s' id).view _) = fun id => (cookPc s id).view _
    rw [hcooks]

/-- Behind `queue_pop` the courier is where the value has sent it. -/
theorem view_pop (value : ℤ) : (CourierPc.pop (.returned value)).view = Courier.holding value := by
  show (if value < 0 then CourierPc.returned else .delivering value).view =
    if value < 0 then .home else .carrying
  split <;> rfl

/-- A courier that reads a value takes a pizza or goes home. -/
theorem load_refines (hs' : (pizzeria cfg).Reachable s') (hcooks : cookPc s' = cookPc s)
    (hother : ∀ c' ≠ c, courierPc s' c' = courierPc s c')
    (hpc : (courierPc s c).view = .free)
    (hpc' : (courierPc s' c).view = Courier.holding s.data.queue_pizzas.front)
    (hdata : s'.data = s.data.setQueue (s.data.queue_pizzas.load (.courier c))) :
    ∃ ms, (restaurant cfg.K cfg.N_tables cfg.pizzas_to_make).Run (shop s) ms (shop s') := by
  have hpushed : s'.data.queue_pizzas.pushed = s.data.queue_pizzas.pushed := by
    rw [hdata]
    rfl
  have hpopped : s'.data.queue_pizzas.popped =
      s.data.queue_pizzas.popped ++ [(.courier c, s.data.queue_pizzas.front)] := by
    rw [hdata]
    rfl
  have hsum := pizzas_snoc s.data.queue_pizzas.popped
    (.courier c, s.data.queue_pizzas.front)
  rw [← hpopped] at hsum
  have hready : (shop s').ready = pizzas s.data.queue_pizzas.pushed -
      pizzas s'.data.queue_pizzas.popped := by
    rw [← hpushed]
    rfl
  have htaken : (shop s').taken = pizzas s'.data.queue_pizzas.popped := rfl
  have hle := (count_popped_le hs').1
  rw [hpushed] at hle
  rw [shop_of_courier hcooks hother hpc', hready, htaken, hsum]
  unfold Courier.holding
  by_cases hstop : s.data.queue_pizzas.front < 0
  · -- nothing is left, and no cook is
    have hstops : 0 < stops s'.data.queue_pizzas.popped := by
      unfold stops
      rw [hpopped, List.countP_append, List.countP_singleton]
      simp [hstop]
    have hall := pizzas_of_stopped hs' hstops
    rw [if_neg (not_le.mpr hstop), Nat.add_zero] at hsum ⊢
    rw [hsum, hpushed] at hall
    rw [if_pos hstop]
    refine ⟨[.goHome c], .single (.goHome hpc ?_ fun id => ?_)⟩
    · show pizzas s.data.queue_pizzas.pushed - pizzas s.data.queue_pizzas.popped = 0
      omega
    · have hreturned := returned_of_stopped hs' (hstops.trans_le (count_popped_le hs').2) id
      rw [hcooks] at hreturned
      show (cookPc s id).view _ = _
      rw [hreturned]
      rfl
  · rw [if_pos (not_lt.mp hstop)] at hsum ⊢
    rw [if_neg hstop, ← Nat.sub_sub]
    refine ⟨[.take c], .single (.take hpc ?_)⟩
    show 0 < pizzas s.data.queue_pizzas.pushed - pizzas s.data.queue_pizzas.popped
    omega

theorem courier_refines (hs' : (pizzeria cfg).Reachable s') (hcooks : cookPc s' = cookPc s)
    (hother : ∀ c' ≠ c, courierPc s' c' = courierPc s c')
    (hleads : (courier_thread cfg c (courierPc s c)).Leads (threads cfg) s s' (courierPc s' c)) :
    ∃ ms, (restaurant cfg.K cfg.N_tables cfg.pizzas_to_make).Run (shop s) ms (shop s') := by
  have hview : (shop s).courier c = (courierPc s c).view := rfl
  have hkeeps : ∀ courier, (courierPc s' c).view = courier →
      s'.data.queue_pizzas = s.data.queue_pizzas → shop s' = (shop s).setCourier c courier := by
    intro courier hc hqueue
    have hready : (shop s').ready = (shop s).ready := by
      unfold shop
      rw [hqueue]
    have htaken : (shop s').taken = (shop s).taken := by
      unfold shop
      rw [hqueue]
    rw [shop_of_courier hcooks hother hc, hready, htaken]
  have hsame : (courierPc s' c).view = (courierPc s c).view →
      s'.data = s.data →
      ∃ ms, (restaurant cfg.K cfg.N_tables cfg.pizzas_to_make).Run (shop s) ms (shop s') := by
    intro hc hdata
    rw [hkeeps _ hc (by rw [hdata]), ← hview, Shop.setCourier_self]
    exact ⟨[], .nil _⟩
  have hload := load_refines hs' hcooks hother
  generalize hpc : courierPc s c = l at *
  generalize hpc' : courierPc s' c = l' at *
  cases l with
  | unborn =>
    obtain ⟨a, hf⟩ := hleads
    obtain ⟨-, heq⟩ := Option.ite_none_right_eq_some.mp hf
    obtain ⟨hdata, rfl⟩ := Prod.mk.inj (Option.some.inj heq)
    exact hsame rfl hdata.symm
  | loop =>
    obtain ⟨a, hf⟩ := hleads
    obtain ⟨hdata, rfl⟩ := Prod.mk.inj (Option.some.inj hf)
    exact hsame rfl hdata.symm
  | popping pc =>
    cases pc with
    | waitItems | waitMutex =>
      obtain ⟨-, hdata, rfl⟩ := hleads
      exact hsame rfl hdata
    | load =>
      obtain ⟨a, hf⟩ := hleads
      obtain ⟨hdata, rfl⟩ := Prod.mk.inj (Option.some.inj hf)
      exact hload rfl rfl hdata.symm
    | postMutex value =>
      obtain ⟨hdata, rfl⟩ := hleads
      exact hsame rfl hdata
    | postSlots value =>
      obtain ⟨hdata, rfl⟩ := hleads
      exact hsame (view_pop value) hdata
    | returned => exact hleads.elim
  | delivering value =>
    obtain ⟨-, hdata, rfl⟩ := hleads
    exact hsame rfl hdata
  | counting value =>
    obtain ⟨a, hf⟩ := hleads
    obtain ⟨hdata, rfl⟩ := Prod.mk.inj (Option.some.inj hf)
    rw [hkeeps _ rfl (by rw [← hdata])]
    exact ⟨[.deliver c], .single (.deliver hview)⟩
  | counted value =>
    obtain ⟨hdata, rfl⟩ := hleads
    exact hsame rfl hdata
  | returned => exact hleads.elim

end courier

/-! ### The refinement -/

/-- `main` changes nothing that the restaurant sees. -/
theorem main_refines {s s' : cfg.State} {l l' : MainPc} (hcooks : cookPc s' = cookPc s)
    (hcouriers : courierPc s' = courierPc s) (hmove : MainMove cfg s s' l l') :
    shop s' = shop s := by
  have hsame : pizzas s'.data.queue_pizzas.pushed = pizzas s.data.queue_pizzas.pushed →
      s'.data.queue_pizzas.popped = s.data.queue_pizzas.popped → shop s' = shop s := by
    intro hpushed hpopped
    unfold shop
    rw [hcooks, hcouriers, hpushed, hpopped]
  cases hmove with
  | store hdata =>
    rw [hdata] at hsame
    exact hsame (pizzas_snoc _ _) rfl
  | createCook _ hdata | createCourier _ hdata | cooksCreated _ hdata | couriersCreated _ hdata
  | joinCook _ _ hdata | cooksJoined _ hdata | stop _ hdata | stopped _ hdata | push hdata
  | joinCourier _ _ hdata | finish _ hdata =>
    rw [hdata] at hsame
    exact hsame rfl rfl

theorem refines (cfg : Config) :
    Refinement (pizzeria cfg) (restaurant cfg.K cfg.N_tables cfg.pizzas_to_make) shop where
  init := by
    rintro _ ⟨buf, rfl⟩
    exact shop_init cfg buf
  step s e s' hs hstep := by
    have hs' := hs.step hstep
    have hframe : ∀ u, u ≠ e.thread → s'.thread u = s.thread u :=
      fun u => Semaphore.Step.frame hstep
    have hleads := (Semaphore.Step.leads hstep).resolve_right (fun hsig => by cases hsig.2)
    generalize e.thread = t at hframe hleads
    cases t with
    | cook id =>
      refine cook_refines hs (fun id' hne => ?_) (funext fun c => ?_) hleads
      · exact hframe (.cook id') (by simpa using hne)
      · exact hframe (.courier c) (by simp)
    | courier c =>
      refine courier_refines hs' (funext fun id => ?_) (fun c' hne => ?_) hleads
      · exact hframe (.cook id) (by simp)
      · exact hframe (.courier c') (by simpa using hne)
    | main =>
      have heq : shop s' = shop s := by
        refine main_refines (funext fun id => ?_) (funext fun c => ?_) (main_leads hleads)
        · exact hframe (.cook id) (by simp)
        · exact hframe (.courier c) (by simp)
      rw [heq]
      exact ⟨[], .nil _⟩

/-- **The pizzeria is a restaurant**: every run of the threads is part of a day of
    it, and when `main` has finished it is a whole day, with five events for every
    pizza and one for every courier. -/
theorem pizzeria_is_restaurant (cfg : Config) {buf : ℕ → ℤ} {s : cfg.State}
    {es : List (Event cfg.Thread Unit)} (h : (pizzeria cfg).Run (init cfg buf) es s) :
    ∃ day, (restaurant cfg.K cfg.N_tables cfg.pizzas_to_make).Run (opening cfg.P cfg.K) day
        (shop s) ∧
      (0 < cfg.K → mainPc s = .finished → shop s = closing cfg.K cfg.pizzas_to_make ∧
        day.length = 5 * cfg.total_pizzas + cfg.K) := by
  have hinit : (pizzeria cfg).Reachable (init cfg buf) := .init ⟨buf, rfl⟩
  obtain ⟨day, hday⟩ := (refines cfg).run h hinit
  rw [shop_init] at hday
  refine ⟨day, hday, fun hK hfin => ?_⟩
  have hclosing : shop s = closing cfg.K cfg.pizzas_to_make := by
    refine (fair (hday.reachable (.init rfl))).eq_closing hK fun c => ?_
    have hreturned := (order (h.reachable hinit)).joinedCourier c (by rw [hfin]; trivial)
    show (courierPc s c).view = .home
    rw [hreturned]
    rfl
  rw [hclosing] at hday
  exact ⟨hclosing, length_of_closing hday⟩

theorem pizzeria_is_restaurant_solo : ∃ s day,
    (pizzeria soloConfig).Run (init soloConfig fun _ => 0) soloRun s ∧
    (restaurant 1 1 soloConfig.pizzas_to_make).Run (opening 1 1) day (shop s) ∧
    shop s = closing 1 soloConfig.pizzas_to_make ∧ day.length = 6 := by
  have hrun : (replay (threads soloConfig) (init soloConfig fun _ => 0) soloRun).map mainPc =
      some .finished := by decide +kernel
  obtain ⟨s, hreplay, hfin⟩ := Option.map_eq_some_iff.mp hrun
  have hsolo : (pizzeria soloConfig).Run (init soloConfig fun _ => 0) soloRun s :=
    Run.of_replay hreplay
  obtain ⟨day, hday, hclosed⟩ := pizzeria_is_restaurant soloConfig hsolo
  exact ⟨s, day, hsolo, hday, hclosed (by decide) hfin⟩

end Pizzeria
