import OsLessons.PizzaHoare.Conservation

/-! # The kitchen: no lost wake-up

  Beside the monitor an observer keeps which threads have been signalled and
  have not used it yet. As long as a cook sleeps, there are at most as many
  free tables as signalled cooks; newcomers may steal a table, but only one
  that somebody had been signalled for.
-/

namespace PizzaHoare

open Lts Monitor

variable {cfg : Config}

/-- The cooks that have been signalled. -/
def signalledCooks (signalled : cfg.Thread → Bool) : Finset (Fin cfg.P) :=
  Finset.univ.filter fun id => signalled (.cook id) = true

theorem mem_signalledCooks {signalled : cfg.Thread → Bool} {id : Fin cfg.P} :
    id ∈ signalledCooks signalled ↔ signalled (.cook id) = true := by
  simp [signalledCooks]

/-- The cook waits for a table, or comes back from the wait. -/
def WantsTable (n : ℕ) (pc : CookPc) : Prop := ∃ i < n, pc = .loop i ∨ pc = .starting i

/-- Who sleeps where, and who has been signalled for what. -/
structure Waiting (cfg : Config) (s : cfg.State) (signalled : cfg.Thread → Bool) : Prop where
  cook : ∀ id c, s.asleep (.cook id) = some c →
    c = .cond_table_free ∧ ∃ i < cfg.pizzas_to_make id, cookPc s id = .loop i
  courier : ∀ id c, s.asleep (.courier id) = some c → c = .cond_pizza_ready
  signal : ∀ id, signalled (.cook id) = true →
    s.asleep (.cook id) = none ∧ WantsTable (cfg.pizzas_to_make id) (cookPc s id)
  table : (∃ id, s.asleep (.cook id) = some .cond_table_free) →
    s.data.free_tables ≤ (signalledCooks signalled).card
  closed : s.data.active_cooks = 0 → ∀ id, s.asleep (.courier id) ≠ some .cond_pizza_ready

/-! ### Places of the other threads -/

theorem cookPc_goto_self (s : cfg.State) (id : Fin cfg.P) (l : CookPc) :
    cookPc (s.goto (.cook id) l) id = l :=
  Host.goto_thread_self s (.cook id) l

theorem cookPc_goto_ne (s : cfg.State) {id id' : Fin cfg.P} (l : CookPc) (h : id' ≠ id) :
    cookPc (s.goto (.cook id) l) id' = cookPc s id' :=
  Host.goto_thread_ne s (t := .cook id) (u := .cook id') l (by simpa using h)

theorem cookPc_goto_courier (s : cfg.State) (c : Fin cfg.K) (l : CourierPc) (id : Fin cfg.P) :
    cookPc (s.goto (.courier c) l) id = cookPc s id :=
  Host.goto_thread_ne s (t := .courier c) (u := .cook id) l (by simp)

/-! ### Steps -/

/-- Where no cook moves and nobody sleeps or wakes up, nothing changes. -/
theorem waiting_of_same {s s' : cfg.State} {signalled : cfg.Thread → Bool}
    (hs : Waiting cfg s signalled) (hdata : s'.data = s.data) (hasleep : s'.asleep = s.asleep)
    (hpc : ∀ id, cookPc s' id = cookPc s id) : Waiting cfg s' signalled := by
  obtain ⟨hcook, hcourier, hsignal, htable, hclosed⟩ := hs
  constructor
  · simpa only [hasleep, hpc] using hcook
  · simpa only [hasleep] using hcourier
  · simpa only [hasleep, hpc] using hsignal
  · simpa only [hasleep, hdata] using htable
  · simpa only [hasleep, hdata] using hclosed

theorem waiting_call {s : cfg.State} {signalled : cfg.Thread → Bool} {t : cfg.Thread}
    {k : Unit → Unit → Option (Unit × Pc t)} {w : Unit} {l : Pc t} (hs : Waiting cfg s signalled)
    (hop : op cfg t (s.thread t) = .call k) :
    Waiting cfg ({ s with world := w }.goto t l) signalled := by
  cases t with
  | cook id =>
    have hcall : cook_thread (cfg.pizzas_to_make id) (cookPc s id) = .call k := hop
    cases hpc : cookPc s id with
    | loop i =>
      rw [hpc] at hcall
      obtain ⟨l₁, hlock⟩ := cook_loop_lock (cfg.pizzas_to_make id) i
      cases hlock.symm.trans hcall
    | starting | cooking | finishing | leaving | returned =>
      rw [hpc] at hcall
      cases hcall
  | courier id =>
    exact waiting_of_same hs rfl rfl fun id' => cookPc_goto_courier _ id l id'

theorem waiting_lock {s : cfg.State} {signalled : cfg.Thread → Bool} {t : cfg.Thread} {l : Pc t}
    (hs : Waiting cfg s signalled) (hop : op cfg t (s.thread t) = .lock l)
    (hawake : s.asleep t = none) :
    Waiting cfg ({ s with owner := some t }.goto t l) signalled := by
  obtain ⟨hcook, hcourier, hsignal, htable, hclosed⟩ := hs
  cases t with
  | cook id =>
    refine ⟨?_, hcourier, ?_, htable, hclosed⟩
    · intro id' c hid'
      have hne : id' ≠ id := by
        rintro rfl
        rw [Host.goto_asleep, hawake] at hid'
        cases hid'
      rw [cookPc_goto_ne _ _ hne]
      exact hcook id' c hid'
    · intro id' hid'
      obtain ⟨hnone, i, hi, hpc⟩ := hsignal id' hid'
      refine ⟨hnone, ?_⟩
      rcases eq_or_ne id' id with rfl | hne
      -- the signalled cook goes on to the test
      · rw [cookPc_goto_self]
        have hlock : cook_thread (cfg.pizzas_to_make id') (cookPc s id') = .lock l := hop
        rcases hpc with hpc | hpc
        · rw [hpc] at hlock
          simp only [cook_thread, hi, ↓reduceIte] at hlock
          cases hlock
          exact ⟨i, hi, .inr rfl⟩
        · rw [hpc] at hlock
          cases hlock
      · rw [cookPc_goto_ne _ _ hne]
        exact ⟨i, hi, hpc⟩
  | courier id =>
    exact waiting_of_same ⟨hcook, hcourier, hsignal, htable, hclosed⟩ rfl rfl
      fun id' => cookPc_goto_courier _ id l id'

theorem waiting_spurious {s : cfg.State} {signalled : cfg.Thread → Bool}
    (hs : Waiting cfg s signalled) (t : cfg.Thread) :
    Waiting cfg { s with asleep := Function.update s.asleep t none } signalled := by
  obtain ⟨hcook, hcourier, hsignal, htable, hclosed⟩ := hs
  constructor
  · intro id c hid
    exact hcook id c (of_update_none hid)
  · intro id c hid
    exact hcourier id c (of_update_none hid)
  · intro id hid
    obtain ⟨hnone, hwants⟩ := hsignal id hid
    refine ⟨?_, hwants⟩
    show Function.update s.asleep t none (.cook id) = none
    rcases eq_or_ne (Thread.cook id) t with rfl | hne
    · rw [Function.update_self]
    · rwa [Function.update_of_ne hne]
  · rintro ⟨id, hid⟩
    exact htable ⟨id, of_update_none hid⟩
  · intro hzero id hid
    exact hclosed hzero id (of_update_none hid)

/-- Who is signalled once `t` has left its section. -/
def afterLeave (s s' : cfg.State) (t : cfg.Thread) (picks : List cfg.Thread)
    (signalled : cfg.Thread → Bool) : cfg.Thread → Bool :=
  notice s s' (.leave t picks : Event cfg.Thread Unit) signalled

section leave
variable {s s' : cfg.State} {signalled : cfg.Thread → Bool} {t : cfg.Thread}
  {picks : List cfg.Thread} {z : cfg.Thread → Option Cond} {sleep : Option Cond}

theorem afterLeave_ne {u : cfg.Thread} (hu : u ≠ t)
    (hasleep : s'.asleep = Function.update z t sleep) :
    afterLeave s s' t picks signalled u = true ↔
      signalled u = true ∨ (∃ c, s.asleep u = some c) ∧ z u = none := by
  simp [afterLeave, notice, hu, hasleep, Option.isSome_iff_exists]

theorem afterLeave_self : afterLeave s s' t picks signalled t = false := by
  simp [afterLeave, notice]

/-- A section that is left keeps `Waiting`, if it does so for the thread that
    leaves and for the counters. -/
theorem waiting_leave (hs : Waiting cfg s signalled)
    (hz : ∀ u c, z u = some c → s.asleep u = some c)
    (hthread : ∀ u ≠ t, s'.thread u = s.thread u)
    (hasleep : s'.asleep = Function.update z t sleep)
    (hcook : ∀ id c, t = .cook id → sleep = some c →
      c = .cond_table_free ∧ ∃ i < cfg.pizzas_to_make id, cookPc s' id = .loop i)
    (hcourier : ∀ id c, t = .courier id → sleep = some c → c = .cond_pizza_ready)
    (htable : (∃ id, s'.asleep (.cook id) = some .cond_table_free) →
      s'.data.free_tables ≤
        (signalledCooks (afterLeave s s' t picks signalled)).card)
    (hclosed : s'.data.active_cooks = 0 →
      ∀ id, s'.asleep (.courier id) ≠ some .cond_pizza_ready) :
    Waiting cfg s' (afterLeave s s' t picks signalled) := by
  have hother : ∀ u ≠ t, s'.asleep u = z u := fun u hu => by
    rw [hasleep, Function.update_of_ne hu]
  have hself : s'.asleep t = sleep := by rw [hasleep, Function.update_self]
  constructor
  case table => exact htable
  case closed => exact hclosed
  case cook =>
    intro id c hid
    by_cases ht : Thread.cook id = t
    · rw [ht, hself] at hid
      exact hcook id c ht.symm hid
    · rw [hother _ ht] at hid
      obtain ⟨hc, i, hi, hpc⟩ := hs.cook id c (hz _ _ hid)
      exact ⟨hc, i, hi, (hthread (.cook id) ht).trans hpc⟩
  case courier =>
    intro id c hid
    by_cases ht : Thread.courier id = t
    · rw [ht, hself] at hid
      exact hcourier id c ht.symm hid
    · rw [hother _ ht] at hid
      exact hs.courier id c (hz _ _ hid)
  case signal =>
    intro id hid
    by_cases ht : Thread.cook id = t
    · rw [ht, afterLeave_self] at hid
      cases hid
    · have hpc : cookPc s' id = cookPc s id := hthread (.cook id) ht
      rw [hother _ ht, hpc]
      rcases (afterLeave_ne ht hasleep).mp hid with hold | ⟨⟨c, hc⟩, hnone⟩
      · obtain ⟨hnone, hwants⟩ := hs.signal id hold
        refine ⟨?_, hwants⟩
        cases hzc : z (.cook id) with
        | none => rfl
        | some c =>
          rw [hz _ _ hzc] at hnone
          cases hnone
      -- it has just been woken
      · obtain ⟨-, i, hi, hloop⟩ := hs.cook id c hc
        exact ⟨hnone, i, hi, .inl hloop⟩

/-- Nobody loses its signal but the thread that leaves. -/
theorem signalledCooks_leave (hasleep : s'.asleep = Function.update z t sleep) {id : Fin cfg.P}
    (hid : id ∈ signalledCooks signalled) (ht : Thread.cook id ≠ t) :
    id ∈ signalledCooks (afterLeave s s' t picks signalled) :=
  mem_signalledCooks.mpr ((afterLeave_ne ht hasleep).mpr (.inl (mem_signalledCooks.mp hid)))

/-- Unless a cook uses its signal up, all signals are kept. -/
theorem card_signalled_le (sleep : Option Cond)
    (hasleep : s'.asleep = Function.update z t sleep)
    (ht : ∀ id, t = .cook id → signalled (.cook id) = false) :
    signalledCooks signalled ⊆ signalledCooks (afterLeave s s' t picks signalled) := by
  intro id hid
  apply signalledCooks_leave hasleep hid
  rintro rfl
  rw [mem_signalledCooks, ht id rfl] at hid
  cases hid

end leave

section sections
variable {s : cfg.State} {signalled : cfg.Thread → Bool} {id : Fin cfg.P}
  {picks : List cfg.Thread} {z : cfg.Thread → Option Cond}

/-- What is left of the state when `t` leaves its section with `l`. -/
def left (s : cfg.State) (t : cfg.Thread) (z : cfg.Thread → Option Cond)
    (l : Leave Kitchen Cond (Pc t)) : cfg.State :=
  { s with data := l.data, owner := none, asleep := Function.update z t l.sleep }.goto t l.next

theorem left_thread {t u : cfg.Thread} {l : Leave Kitchen Cond (Pc t)} (hu : u ≠ t) :
    (left s t z l).thread u = s.thread u :=
  Host.goto_thread_ne _ _ hu

theorem left_asleep_self {t : cfg.Thread} {l : Leave Kitchen Cond (Pc t)} :
    (left s t z l).asleep t = l.sleep :=
  Function.update_self ..

theorem left_asleep_ne {t u : cfg.Thread} {l : Leave Kitchen Cond (Pc t)} (hu : u ≠ t) :
    (left s t z l).asleep u = z u :=
  Function.update_of_ne hu ..

/-- The test of `kitchen_start_cooking`. -/
theorem waiting_starting {i : ℕ} (hs : Waiting cfg s signalled)
    (hi : i < cfg.pizzas_to_make id) :
    Waiting cfg (left s (.cook id) s.asleep (kitchen_start_cooking i s.data))
      (afterLeave s (left s (.cook id) s.asleep (kitchen_start_cooking i s.data)) (.cook id) picks
        signalled) := by
  by_cases hfull : s.data.free_tables = 0
  -- it sleeps: no table is free
  · have hl : kitchen_start_cooking i s.data =
        { data := s.data, sleep := some .cond_table_free, next := .loop i } := if_pos hfull
    rw [hl]
    apply waiting_leave hs (fun _ _ hu => hu) (fun u hu => left_thread hu) rfl
    · rintro id' c ⟨⟩ ⟨⟩
      exact ⟨rfl, i, hi, cookPc_goto_self _ _ _⟩
    · rintro id' c ⟨⟩
    · rintro -
      show s.data.free_tables ≤ _
      omega
    · intro hzero id' hid'
      rw [left_asleep_ne (by simp)] at hid'
      exact hs.closed hzero id' hid'
  -- it takes a table, and uses up its own signal at most
  · have hl : kitchen_start_cooking i s.data =
        { data := { s.data with free_tables := s.data.free_tables - 1 }, next := .cooking i } :=
      if_neg hfull
    rw [hl]
    apply waiting_leave hs (fun _ _ hu => hu) (fun u hu => left_thread hu) rfl
    · rintro id' c ⟨⟩ ⟨⟩
    · rintro id' c ⟨⟩
    · rintro ⟨id', hid'⟩
      have hne : (Thread.cook id' : cfg.Thread) ≠ .cook id := by
        intro heq
        rw [heq, left_asleep_self] at hid'
        cases hid'
      rw [left_asleep_ne hne] at hid'
      have hold := hs.table ⟨id', hid'⟩
      have hsub : (signalledCooks signalled).erase id ⊆ signalledCooks (afterLeave s
          (left s (.cook id) s.asleep
            { data := { s.data with free_tables := s.data.free_tables - 1 }, next := .cooking i })
          (.cook id) picks signalled) := by
        intro u hu
        apply signalledCooks_leave rfl (Finset.mem_of_mem_erase hu)
        simpa using Finset.ne_of_mem_erase hu
      have hcard := Finset.card_le_card hsub
      have herase := Finset.pred_card_le_card_erase (s := signalledCooks signalled) (a := id)
      show s.data.free_tables - 1 ≤ _
      omega
    · intro hzero id' hid'
      rw [left_asleep_ne (by simp)] at hid'
      exact hs.closed hzero id' hid'

/-- `kitchen_finish_cooking`: the table that is freed comes with a signal. -/
theorem waiting_finishing {i : ℕ} (hs : Waiting cfg s signalled)
    (hawake : s.asleep (.cook id) = none) (hquiet : signalled (.cook id) = false)
    (hz : rouse (kitchen_finish_cooking i s.data).wakes picks s.asleep = some z) :
    Waiting cfg (left s (.cook id) z (kitchen_finish_cooking i s.data))
      (afterLeave s (left s (.cook id) z (kitchen_finish_cooking i s.data)) (.cook id) picks
        signalled) := by
  have hmono : ∀ u c, z u = some c → s.asleep u = some c := fun u c => rouse_mono hz
  have hsub : signalledCooks signalled ⊆ signalledCooks (afterLeave s
      (left s (.cook id) z (kitchen_finish_cooking i s.data)) (.cook id) picks signalled) := by
    apply card_signalled_le none rfl
    rintro id' ⟨⟩
    exact hquiet
  apply waiting_leave hs hmono (fun u hu => left_thread hu) rfl
  · rintro id' c ⟨⟩ ⟨⟩
  · rintro id' c ⟨⟩
  · rintro ⟨id', hid'⟩
    have hne : (Thread.cook id' : cfg.Thread) ≠ .cook id := by
      intro heq
      rw [heq, left_asleep_self] at hid'
      cases hid'
    rw [left_asleep_ne hne] at hid'
    have hold := hs.table ⟨id', hmono _ _ hid'⟩
    -- somebody slept, so the signal has found a cook
    obtain ⟨p, hp, hwoken⟩ := rouse_wakes hz (hmono _ _ hid')
    cases p with
    | courier c =>
      cases hs.courier c _ hp
    | cook p =>
      have hpne : (Thread.cook p : cfg.Thread) ≠ .cook id := by
        intro heq
        rw [heq, hawake] at hp
        cases hp
      have hnew : p ∉ signalledCooks signalled := by
        rw [mem_signalledCooks]
        intro hsig
        rw [(hs.signal p hsig).1] at hp
        cases hp
      have hinsert : insert p (signalledCooks signalled) ⊆ signalledCooks (afterLeave s
          (left s (.cook id) z (kitchen_finish_cooking i s.data)) (.cook id) picks
            signalled) := by
        apply Finset.insert_subset _ hsub
        exact mem_signalledCooks.mpr ((afterLeave_ne hpne rfl).mpr (.inr ⟨⟨_, hp⟩, hwoken⟩))
      have hcard := Finset.card_le_card hinsert
      rw [Finset.card_insert_of_notMem hnew] at hcard
      show s.data.free_tables + 1 ≤ _
      omega
  · intro hzero id' hid'
    rw [left_asleep_ne (by simp)] at hid'
    exact hs.closed hzero id' (hmono _ _ hid')

/-- `kitchen_cook_done`: the last cook wakes all couriers. -/
theorem waiting_leaving (hs : Waiting cfg s signalled) (hquiet : signalled (.cook id) = false)
    (hz : rouse (kitchen_cook_done s.data).wakes picks s.asleep = some z) :
    Waiting cfg (left s (.cook id) z (kitchen_cook_done s.data))
      (afterLeave s (left s (.cook id) z (kitchen_cook_done s.data)) (.cook id) picks
        signalled) := by
  have hmono : ∀ u c, z u = some c → s.asleep u = some c := fun u c => rouse_mono hz
  have hsub : signalledCooks signalled ⊆ signalledCooks (afterLeave s
      (left s (.cook id) z (kitchen_cook_done s.data)) (.cook id) picks signalled) := by
    apply card_signalled_le none rfl
    rintro id' ⟨⟩
    exact hquiet
  apply waiting_leave hs hmono (fun u hu => left_thread hu) rfl
  · rintro id' c ⟨⟩ ⟨⟩
  · rintro id' c ⟨⟩
  · rintro ⟨id', hid'⟩
    have hne : (Thread.cook id' : cfg.Thread) ≠ .cook id := by
      intro heq
      rw [heq, left_asleep_self] at hid'
      cases hid'
    rw [left_asleep_ne hne] at hid'
    have hold := hs.table ⟨id', hmono _ _ hid'⟩
    have hcard := Finset.card_le_card hsub
    show s.data.free_tables ≤ _
    omega
  · intro hzero id' hid'
    rw [left_asleep_ne (by simp)] at hid'
    have hlast : s.data.active_cooks - 1 = 0 := hzero
    refine rouse_broadcast hz ?_ _ hid'
    simp [kitchen_cook_done, hlast]

/-- The test of `kitchen_take_pizza`. -/
theorem waiting_taking {c : Fin cfg.K} {taken : ℕ} (hs : Waiting cfg s signalled) :
    Waiting cfg (left s (.courier c) s.asleep (kitchen_take_pizza taken s.data))
      (afterLeave s (left s (.courier c) s.asleep (kitchen_take_pizza taken s.data)) (.courier c)
        picks signalled) := by
  have hsub : signalledCooks signalled ⊆ signalledCooks (afterLeave s
      (left s (.courier c) s.asleep (kitchen_take_pizza taken s.data)) (.courier c) picks
        signalled) := by
    apply card_signalled_le (kitchen_take_pizza taken s.data).sleep rfl
    rintro id' ⟨⟩
  have hcard := Finset.card_le_card hsub
  have hdata : (kitchen_take_pizza taken s.data).data.free_tables = s.data.free_tables ∧
      (kitchen_take_pizza taken s.data).data.active_cooks = s.data.active_cooks ∧
      ((kitchen_take_pizza taken s.data).sleep = none ∨
        (kitchen_take_pizza taken s.data).sleep = some .cond_pizza_ready ∧
          0 < s.data.active_cooks) := by
    unfold kitchen_take_pizza
    split
    · next hwait => exact ⟨rfl, rfl, .inr ⟨rfl, hwait.2⟩⟩
    · split <;> exact ⟨rfl, rfl, .inl rfl⟩
  obtain ⟨hfree, hactive, hsleep⟩ := hdata
  apply waiting_leave hs (fun _ _ hu => hu) (fun u hu => left_thread hu) rfl
  · rintro id' c' ⟨⟩
  · rintro id' c' ⟨⟩ hc'
    rcases hsleep with hsleep | ⟨hsleep, -⟩
    · rw [hsleep] at hc'
      cases hc'
    · rw [hsleep] at hc'
      cases hc'
      rfl
  · rintro ⟨id', hid'⟩
    rw [left_asleep_ne (by simp)] at hid'
    have hold := hs.table ⟨id', hid'⟩
    show (kitchen_take_pizza taken s.data).data.free_tables ≤ _
    omega
  · intro hzero id' hid'
    have hnone : s.data.active_cooks = 0 := hactive.symm.trans hzero
    by_cases hne : (Thread.courier id' : cfg.Thread) = .courier c
    · rw [hne, left_asleep_self] at hid'
      rcases hsleep with hsleep | ⟨-, hpos⟩
      · rw [hsleep] at hid'
        cases hid'
      · omega
    · rw [left_asleep_ne hne] at hid'
      exact hs.closed hnone id' hid'

end sections

theorem rouse_nil (picks : List cfg.Thread) {z z' : cfg.Thread → Option Cond}
    (h : rouse [] picks z = some z') : z' = z := by
  cases picks with
  | nil =>
    cases h
    rfl
  | cons => cases h

theorem waiting_step {s s' : cfg.State} {signalled : cfg.Thread → Bool}
    {e : Event cfg.Thread Unit} (hs : Waiting cfg s signalled)
    (hin : ∀ t, InRange cfg t (s.thread t)) (howned : Owned (op cfg) s)
    (h : Step (op cfg) s e s') : Waiting cfg s' (notice s s' e signalled) := by
  cases h with
  | call hop => exact waiting_call hs hop
  | lock hop _ hawake => exact waiting_lock hs hop hawake
  | spurious => exact waiting_spurious hs _
  | @leave t picks k z hop hz =>
    cases t with
    | cook id =>
      have hcrit : cook_thread (cfg.pizzas_to_make id) (cookPc s id) = .critical k := hop
      have hrange : InRange cfg (.cook id) (cookPc s id) := hin (.cook id)
      have hawake : s.asleep (.cook id) = none := by
        cases hz : s.asleep (.cook id) with
        | none => rfl
        | some c =>
          obtain ⟨l, hl⟩ := howned.asleep _ _ hz
          cases hl.symm.trans hop
      -- only a cook that wants a table has a signal
      have hquiet : ¬ WantsTable (cfg.pizzas_to_make id) (cookPc s id) →
          signalled (.cook id) = false := by
        intro hno
        by_contra hsig
        rw [Bool.not_eq_false] at hsig
        exact hno (hs.signal id hsig).2
      cases hpc : cookPc s id with
      | starting i =>
        rw [hpc] at hcrit hrange
        cases hcrit
        have hsame : z = s.asleep := by
          apply rouse_nil picks
          convert hz using 1
          unfold kitchen_start_cooking
          split <;> rfl
        subst hsame
        exact waiting_starting hs hrange
      | finishing i =>
        rw [hpc] at hcrit hquiet
        cases hcrit
        refine waiting_finishing hs hawake (hquiet ?_) hz
        rintro ⟨j, -, hj | hj⟩ <;> cases hj
      | leaving =>
        rw [hpc] at hcrit hquiet
        cases hcrit
        refine waiting_leaving hs (hquiet ?_) hz
        rintro ⟨j, -, hj | hj⟩ <;> cases hj
      | loop i =>
        rw [hpc] at hcrit
        obtain ⟨l, hl⟩ := cook_loop_lock (cfg.pizzas_to_make id) i
        cases hl.symm.trans hcrit
      | cooking | returned =>
        rw [hpc] at hcrit
        cases hcrit
    | courier id =>
      have hcrit : courier_thread (courierPc s id) = .critical k := hop
      cases hpc : courierPc s id with
      | taking taken =>
        rw [hpc] at hcrit
        cases hcrit
        have hsame : z = s.asleep := by
          apply rouse_nil picks
          convert hz using 1
          unfold kitchen_take_pizza
          split
          · rfl
          · split <;> rfl
        subst hsame
        exact waiting_taking hs
      | loop | delivering | returned =>
        rw [hpc] at hcrit
        cases hcrit

theorem waiting {s : cfg.State} {signalled : cfg.Thread → Bool}
    (h : (watched (op cfg) fun s => s = init cfg).Reachable (s, signalled)) :
    Waiting cfg s signalled := by
  have hgood : ∀ x : cfg.State × (cfg.Thread → Bool),
      (watched (op cfg) fun s => s = init cfg).Reachable x →
        (∀ t, InRange cfg t (x.1.thread t)) ∧ Owned (op cfg) x.1 := fun x hx =>
    ⟨inRange (watched_fst hx), owned (watched_fst hx)⟩
  refine System.invariant_of (I := fun x => Waiting cfg x.1 x.2) hgood ?_ ?_ h
  · rintro ⟨s, signalled⟩ ⟨hinit, hnone⟩
    simp only at hinit hnone
    subst hinit hnone
    constructor
    · rintro id c ⟨⟩
    · rintro id c ⟨⟩
    · rintro id ⟨⟩
    · rintro ⟨id, ⟨⟩⟩
    · rintro _ id ⟨⟩
  · rintro ⟨s, signalled⟩ e ⟨s', signalled'⟩ ⟨hin, howned⟩ hs ⟨hstep, hnotice⟩
    simp only at hnotice
    subst hnotice
    exact waiting_step hs hin howned hstep

/-! ### No lost wake-up -/

/-- Where everybody has returned or sleeps unsignalled, everybody has returned. -/
theorem returned_of_quiet (hN : 0 < cfg.N_tables) {s : cfg.State} {signalled : cfg.Thread → Bool}
    (hs : Waiting cfg s signalled) (hbooks : Books cfg s)
    (hquiet : ∀ t, op cfg t (s.thread t) = .exit ∨ ∃ c, s.asleep t = some c) :
    (∀ id, cookPc s id = .returned) ∧ ∀ id, ∃ taken, courierPc s id = .returned taken := by
  have hcook : ∀ id, cookPc s id = .returned ∨ s.asleep (.cook id) = some .cond_table_free := by
    intro id
    rcases hquiet (.cook id) with hexit | ⟨c, hc⟩
    · left
      have hop : cook_thread (cfg.pizzas_to_make id) (cookPc s id) = .exit := hexit
      cases hpc : cookPc s id with
      | returned => rfl
      | loop i =>
        rw [hpc] at hop
        obtain ⟨l, hl⟩ := cook_loop_lock (cfg.pizzas_to_make id) i
        cases hl.symm.trans hop
      | starting | cooking | finishing | leaving =>
        rw [hpc] at hop
        cases hop
    · right
      rw [hc, (hs.cook id c hc).1]
  -- no cook is at a table
  have haway : ∀ id, (cookPc s id).atTable = 0 := by
    intro id
    rcases hcook id with hret | hsleep
    · rw [hret]
      rfl
    · obtain ⟨-, i, -, hloop⟩ := hs.cook id _ hsleep
      rw [hloop]
      rfl
  have hreturned : ∀ id, cookPc s id = .returned := by
    intro id
    rcases hcook id with hret | hsleep
    · exact hret
    -- all tables are free, so somebody has been signalled and is awake
    · have htables := hbooks.tables
      rw [Finset.sum_eq_zero fun id _ => haway id] at htables
      have hle := hs.table ⟨id, hsleep⟩
      have hpos : 0 < (signalledCooks signalled).card := by omega
      obtain ⟨p, hp⟩ := Finset.card_pos.mp hpos
      obtain ⟨hawake, i, hi, hwants⟩ := hs.signal p (mem_signalledCooks.mp hp)
      rcases hcook p with hret | hsleep'
      · rw [hret] at hwants
        rcases hwants with hloop | hstart
        · cases hloop
        · cases hstart
      · rw [hsleep'] at hawake
        cases hawake
  refine ⟨hreturned, ?_⟩
  intro id
  have hzero : s.data.active_cooks = 0 := by
    rw [hbooks.cooks]
    apply Finset.sum_eq_zero
    intro id _
    rw [hreturned id]
    rfl
  rcases hquiet (.courier id) with hexit | ⟨c, hc⟩
  · have hop : courier_thread (courierPc s id) = .exit := hexit
    cases hpc : courierPc s id with
    | returned taken => exact ⟨taken, rfl⟩
    | loop | taking | delivering =>
      rw [hpc] at hop
      cases hop
  · have hpizza := hs.courier id c hc
    subst hpizza
    exact absurd hc (hs.closed hzero id)

/-- **No lost wake-up**: until all threads have returned, one of them can take a
    step that is not a spurious wake-up. No cook sleeps while a table is free
    and no awake cook has been signalled, and no courier sleeps once all cooks
    are done. -/
theorem no_sleeper_forgotten (cfg : Config) (hN : 0 < cfg.N_tables) (s : cfg.State)
    (h : (kitchen cfg).Reachable s) :
    ((∃ id, cookPc s id ≠ .returned) ∨ (∃ id, ∀ taken, courierPc s id ≠ .returned taken) →
      ∃ e, (∀ t, e ≠ .spurious t) ∧ (kitchen cfg).Enabled s e) ∧
    (∀ signalled, (watched (op cfg) fun s => s = init cfg).Reachable (s, signalled) →
      ∀ id, s.asleep (.cook id) = some .cond_table_free → 0 < s.data.free_tables →
        ∃ id', signalled (.cook id') = true ∧ s.asleep (.cook id') = none) ∧
    (s.data.active_cooks = 0 → ∀ id, s.asleep (.courier id) ≠ some .cond_pizza_ready) := by
  obtain ⟨signalled, hwatched⟩ := exists_watched h
  have hs := waiting hwatched
  refine ⟨?_, ?_, hs.closed⟩
  · intro hrunning
    by_contra hnone
    have hquiet : ∀ e, Event.effective (fun _ : Unit => false) e = true →
        Monitor.next (op cfg) s e = none := by
      intro e he
      cases hnext : Monitor.next (op cfg) s e with
      | none => rfl
      | some s' =>
        refine absurd ⟨e, ?_, s', step_of_next hnext⟩ hnone
        rintro t rfl
        cases he
    have hcall : ∀ t k, op cfg t (s.thread t) = .call k →
        ∃ a, false = false ∧ (k s.world a).isSome := by
      intro t k hop
      refine ⟨(), rfl, ?_⟩
      cases t with
      | cook id =>
        have hc : cook_thread (cfg.pizzas_to_make id) (cookPc s id) = .call k := hop
        cases hpc : cookPc s id with
        | loop i =>
          rw [hpc] at hc
          obtain ⟨l, hl⟩ := cook_loop_lock (cfg.pizzas_to_make id) i
          cases hl.symm.trans hc
        | starting | cooking | finishing | leaving | returned =>
          rw [hpc] at hc
          cases hc
      | courier id =>
        have hc : courier_thread (courierPc s id) = .call k := hop
        cases hpc : courierPc s id with
        | delivering taken =>
          rw [hpc] at hc
          cases hc
          rfl
        | loop | taking | returned =>
          rw [hpc] at hc
          cases hc
    obtain ⟨hcooks, hcouriers⟩ := returned_of_quiet hN hs (books h)
      (stuck_of_quiet (owned h) hcall hquiet)
    rcases hrunning with ⟨id, hid⟩ | ⟨id, hid⟩
    · exact hid (hcooks id)
    · obtain ⟨taken, htaken⟩ := hcouriers id
      exact hid taken htaken
  · intro signalled' hwatched' id hsleep hfree
    have hs' := waiting hwatched'
    have hle := hs'.table ⟨id, hsleep⟩
    have hpos : 0 < (signalledCooks signalled').card := by omega
    obtain ⟨p, hp⟩ := Finset.card_pos.mp hpos
    have hsig := mem_signalledCooks.mp hp
    exact ⟨p, hsig, (hs'.signal p hsig).1⟩

/-- One table for three cooks. -/
def crowdConfig : Config where
  N_tables := 1
  P := 3
  K := 1
  pizzas_to_make _ := 1

def crowdCook (i : ℕ) (h : i < 3) : crowdConfig.Thread := .cook ⟨i, h⟩

/-- Cook 0 gets the table, the others sleep; when it has finished, cook 1 is
    signalled and cook 2 sleeps on. -/
def crowdRun : List (Event crowdConfig.Thread Unit) :=
  [.lock (crowdCook 0 (by decide)), .leave (crowdCook 0 (by decide)) [],
    .lock (crowdCook 1 (by decide)), .leave (crowdCook 1 (by decide)) [],
    .lock (crowdCook 2 (by decide)), .leave (crowdCook 2 (by decide)) [],
    .lock (crowdCook 0 (by decide)),
    .leave (crowdCook 0 (by decide)) [crowdCook 1 (by decide)]]

theorem no_sleeper_forgotten_crowd : ∃ s, (kitchen crowdConfig).Reachable s ∧
    s.asleep (crowdCook 2 (by decide)) = some .cond_table_free ∧ s.data.free_tables = 1 ∧
    ((∃ id, cookPc s id ≠ .returned) ∨ (∃ id, ∀ taken, courierPc s id ≠ .returned taken) →
      ∃ e, (∀ t, e ≠ .spurious t) ∧ (kitchen crowdConfig).Enabled s e) ∧
    (∀ signalled,
      (watched (op crowdConfig) fun s => s = init crowdConfig).Reachable (s, signalled) →
      ∀ id, s.asleep (.cook id) = some .cond_table_free → 0 < s.data.free_tables →
        ∃ id', signalled (.cook id') = true ∧ s.asleep (.cook id') = none) ∧
    (s.data.active_cooks = 0 → ∀ id, s.asleep (.courier id) ≠ some .cond_pizza_ready) := by
  have hrun : (replay (op crowdConfig) (init crowdConfig) crowdRun).map
      (fun s => (s.asleep (crowdCook 2 (by decide)), s.data.free_tables)) =
        some (some .cond_table_free, 1) := by decide +kernel
  obtain ⟨s, hreplay, hstate⟩ := Option.map_eq_some_iff.mp hrun
  obtain ⟨hasleep, hfree⟩ := Prod.mk.inj hstate
  have hreach : (kitchen crowdConfig).Reachable s :=
    (Run.of_replay hreplay).reachable (.init rfl)
  exact ⟨s, hreach, hasleep, hfree, no_sleeper_forgotten crowdConfig (by decide) s hreach⟩

end PizzaHoare
