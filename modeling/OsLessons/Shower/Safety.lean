import OsLessons.Shower.Step

/-! # Safety of the shower

  The counters of `state_t` and the two `SEM_UNDO` semaphores are tied to the
  program points of all clients:

  - `SEM_MUTEX` plus the clients between its `P` and `V` is one;
  - `SEM_CAP` plus the clients holding a slot is `N`;
  - `men_in` and `women_in` count the clients between their `ENTER` and the
    decrement of `leave_gender`;
  - an occupied shower has its sex in `current_gender`.

  No bound on the number of clients is needed: a client that dies in a failed
  `Vq_k` gives back what it holds through `SEM_UNDO`.
-/

namespace Shower

open Lts Census

/-! ### Local laws of a move -/

section laws
variable {ms δ : ℤ} {who : Gender} {S S' : Shared} {pc pc' : Pc} {k : Sem} {log : List Log}

/-- The client has entered and has not yet left. -/
def Pc.isInside : Pc → Bool
  | .entered | .inside => true
  | _ => false

@[simp] theorem Pc.isInside_died : Pc.died.isInside = false := rfl

/-- What a move adds to `SEM_MUTEX` or `SEM_CAP` it takes off its own
    `SEM_UNDO` adjustment. -/
theorem Move.semadj (h : Move ms who S pc (k, δ) S' pc' log) {m : Sem}
    (hm : m = .MUTEX ∨ m = .CAP) :
    (pc'.semadj m : ℤ) + (if m = k then δ else 0) = pc.semadj m := by
  rcases hm with rfl | rfl
  · cases h <;> simp [Pc.semadj]
    case dequeue => cases who <;> simp [Gender.queue]
    case post g _ => cases g <;> simp [Gender.queue]
  · cases h <;> simp [Pc.semadj]
    case dequeue => cases who <;> simp [Gender.queue]
    case post g _ => cases g <;> simp [Gender.queue]

/-- A move changes `men_in` and `women_in` with the client's program point. -/
theorem Move.in_ (h : Move ms who S pc (k, δ) S' pc' log) (g : Gender) :
    S'.in_ g + (if who = g ∧ pc.isInside then 1 else 0) =
      S.in_ g + (if who = g ∧ pc'.isInside then 1 else 0) := by
  cases h <;> simp [Pc.isInside, eq_comm]

theorem Move.N (h : Move ms who S pc (k, δ) S' pc' log) : S'.N = S.N := by
  cases h <;> simp

/-- A move keeps the sex of an occupied shower in `current_gender`. -/
theorem Move.coherent (h : Move ms who S pc (k, δ) S' pc' log)
    (hcoh : ∀ g, 0 < S.in_ g → S.current_gender = some g) :
    ∀ g, 0 < S'.in_ g → S'.current_gender = some g := by
  intro g hg
  cases h with
  | refuse | register =>
    simp only [register_in_] at hg
    simpa using hcoh g hg
  -- `enter` sets `current_gender` itself
  | enter ha =>
    obtain ⟨_, hother, _⟩ := allow_iff.mp ha
    obtain rfl | rfl := Gender.eq_or_eq_other who g
    · simp
    -- nobody of the other sex is inside when the check succeeds
    · simp only [enter_in_, Gender.other_ne, ↓reduceIte, add_zero] at hg
      omega
  | leave =>
    simp only [leave_in_] at hg
    have := hcoh g (by split at hg <;> omega)
    simpa using this
  -- a wake function and `go_idle` run in an empty shower
  | wake g' reason he hd =>
    have := (S.empty_iff.mp he) g
    simp only [wake_locked_in_] at hg
    omega
  | idle he hd =>
    have := (S.empty_iff.mp he) g
    simp only [go_idle_in_] at hg
    omega
  | _ => exact hcoh g hg

end laws

/-! ### The invariant -/

variable {C : Type*} [Fintype C]

/-- Weight of a client of sex `g` that is inside. -/
def insideWeight (cfg : Config C) (g : Gender) (c : C) (p : Pc) : ℤ :=
  if cfg.who c = g ∧ p.isInside then 1 else 0

/-- Number of clients of sex `g` that have entered and not yet left. -/
def numInside (cfg : Config C) (s : State C) (g : Gender) : ℕ :=
  (Finset.univ.filter fun c => cfg.who c = g ∧ (s.pc c).isInside).card

theorem census_insideWeight (cfg : Config C) (s : State C) (g : Gender) :
    census (insideWeight cfg g) s.pc = numInside cfg s g := by
  unfold numInside
  exact census_eq_card (Q := fun c p => cfg.who c = g ∧ p.isInside = true) s.pc

/-- The safety invariant. -/
structure Inv (cfg : Config C) (s : State C) : Prop where
  -- a semaphore and what the kernel would add back to it
  mutex : (s.sem .MUTEX : ℤ) + census (fun _ p => (p.semadj .MUTEX : ℤ)) s.pc = 1
  cap : (s.sem .CAP : ℤ) + census (fun _ p => (p.semadj .CAP : ℤ)) s.pc = cfg.N
  size : s.S.N = cfg.N
  limit : cfg.N ≤ SEMVMX
  inside : ∀ g, s.S.in_ g = census (insideWeight cfg g) s.pc
  coherent : ∀ g, 0 < s.S.in_ g → s.S.current_gender = some g

namespace Inv
variable {cfg : Config C} {s : State C}

theorem in_nonneg (h : Inv cfg s) (g : Gender) : 0 ≤ s.S.in_ g := by
  rw [h.inside g, census_insideWeight]
  exact Int.natCast_nonneg _

/-- A client inside its mutex section has `SEM_MUTEX` at zero. -/
theorem mutex_eq_zero (h : Inv cfg s) {c : C} (hc : (s.pc c).semadj .MUTEX = 1) :
    s.sem .MUTEX = 0 := by
  have hle := le_census (w := fun (_ : C) (p : Pc) => (p.semadj .MUTEX : ℤ)) (f := s.pc)
    (fun _ => Int.natCast_nonneg _) c
  have := h.mutex
  simp only [hc] at hle
  omega

/-- A client that holds a slot leaves less than `N` of them. -/
theorem cap_lt (h : Inv cfg s) {c : C} (hc : (s.pc c).semadj .CAP = 1) :
    (s.sem .CAP : ℤ) < cfg.N := by
  have hle := le_census (w := fun (_ : C) (p : Pc) => (p.semadj .CAP : ℤ)) (f := s.pc)
    (fun _ => Int.natCast_nonneg _) c
  have := h.cap
  simp only [hc] at hle
  omega

/-- A failed `semop` is never a `V(SEM_MUTEX)`. -/
theorem not_erange_mutex (h : Inv cfg s) {c : C} (hc : (s.pc c).semadj .MUTEX = 1) :
    semop (s.sem .MUTEX) 1 ≠ .erange := by
  intro he
  have hz := h.mutex_eq_zero hc
  have hlim := (semop_erange he).2
  simp only [SEMVMX] at hlim
  omega

end Inv

theorem inv_init {cfg : Config C} {s : State C} (h : cmd_init cfg.N = some s) :
    Inv cfg s := by
  obtain ⟨hN, hlimit, rfl⟩ := cmd_init_eq_some.mp h
  refine ⟨?_, ?_, rfl, hlimit, fun g => ?_, fun g hg => ?_⟩
  · simp [initState, Pc.semadj, census]
  · simp only [initState, Pc.semadj, census, Nat.cast_zero, Finset.sum_const_zero, add_zero]
    omega
  · simp [insideWeight, census, Pc.isInside]
  · simp at hg

/-- The occupants fit into the slots that are taken. -/
theorem Inv.in_le {cfg : Config C} {s : State C} (h : Inv cfg s) :
    s.S.in_ .MEN + s.S.in_ .WOMEN ≤ cfg.N := by
  rw [h.inside, h.inside, ← census_add]
  have hslot : census (fun c p => insideWeight cfg .MEN c p + insideWeight cfg .WOMEN c p) s.pc ≤
      census (fun _ p => (p.semadj .CAP : ℤ)) s.pc := by
    apply census_mono
    intro c
    -- a client inside holds a slot
    cases hw : cfg.who c <;> cases hp : s.pc c <;>
      simp [insideWeight, hw, Pc.isInside, Pc.semadj]
  have := h.cap
  omega

section steps
variable [DecidableEq C]

theorem census_moved (w : C → Pc → ℤ) (s : State C) (c : C) (k : Sem) (v : ℕ)
    (S' : Shared) (pc' : Pc) :
    census w (s.moved c k v S' pc').pc = census w s.pc - w c (s.pc c) + w c pc' :=
  census_update w s.pc c pc'

/-- Any step of the shower keeps the safety invariant. -/
theorem inv_step {cfg : Config C} {s s' : State C} {c : C} {log : List Log}
    (hinv : Inv cfg s) (h : Step cfg s c s' log) : Inv cfg s' := by
  cases h with
  | fork hpc =>
    refine ⟨?_, ?_, hinv.size, hinv.limit, ?_, hinv.coherent⟩
    · have := hinv.mutex
      simpa [census_update, hpc, Pc.semadj] using this
    · have := hinv.cap
      simpa [census_update, hpc, Pc.semadj] using this
    · intro g
      have := hinv.inside g
      simpa [census_update, hpc, insideWeight, Pc.isInside] using this
  -- the kernel gives back exactly what the client held
  | die k delta hop he =>
    refine ⟨?_, ?_, hinv.size, hinv.limit, ?_, hinv.coherent⟩
    · have := hinv.mutex
      simp only [die, census_update, Pc.semadj_died, Nat.cast_add]
      omega
    · have := hinv.cap
      simp only [die, census_update, Pc.semadj_died, Nat.cast_add]
      omega
    -- a client inside performs `V(SEM_MUTEX)` or a `P`, and neither fails
    · intro g
      have hout : (s.pc c).isInside = false := by
        cases hpc : s.pc c <;> simp only [Pc.isInside]
        case entered =>
          rw [hpc] at hop
          cases hop
          exact absurd he (hinv.not_erange_mutex (c := c) (by rw [hpc]; rfl))
        case inside =>
          rw [hpc] at hop
          cases hop
          have := (semop_erange he).1
          omega
      have := hinv.inside g
      simp only [die, census_update, insideWeight, hout, Pc.isInside_died]
      simpa using this
  -- what the operation adds to a semaphore the client's adjustment loses
  | @move k delta v S' pc' _ hv hm =>
    have hsem := semop_ok hv
    refine ⟨?_, ?_, ?_, hinv.limit, ?_, ?_⟩
    · have hlaw := hm.semadj (m := .MUTEX) (.inl rfl)
      have := hinv.mutex
      rw [census_moved]
      by_cases hk : Sem.MUTEX = k
      · subst hk
        simp only [State.moved, Function.update_self, ↓reduceIte] at hlaw ⊢
        omega
      · simp only [State.moved, Function.update_of_ne hk, hk, ↓reduceIte] at hlaw ⊢
        omega
    · have hlaw := hm.semadj (m := .CAP) (.inr rfl)
      have := hinv.cap
      rw [census_moved]
      by_cases hk : Sem.CAP = k
      · subst hk
        simp only [State.moved, Function.update_self, ↓reduceIte] at hlaw ⊢
        omega
      · simp only [State.moved, Function.update_of_ne hk, hk, ↓reduceIte] at hlaw ⊢
        omega
    · exact hm.N.trans hinv.size
    · intro g
      have hlaw := hm.in_ g
      have := hinv.inside g
      rw [census_moved]
      simp only [State.moved, insideWeight] at this ⊢
      omega
    · exact hm.coherent hinv.coherent

theorem inv_reachable {cfg : Config C} {s : State C} (h : (shower cfg).Reachable s) :
    Inv cfg s :=
  System.invariant (I := Inv cfg) (fun _ => inv_init)
    (fun _ _ _ hi hs => inv_step hi (step_of_next hs)) h

/-! ### The safety theorem -/

/-- **Safety.** Whenever `SEM_MUTEX` is free, the counters are the numbers of
    men and women inside, both sexes are never inside together, the capacity
    is respected and `current_gender` is the sex of the occupants. -/
theorem shower_safety (cfg : Config C) :
    ∀ s, (shower cfg).Reachable s → s.sem .MUTEX = 1 →
      (s.S.men_in = numInside cfg s .MEN ∧ s.S.women_in = numInside cfg s .WOMEN) ∧
      ¬ (0 < s.S.men_in ∧ 0 < s.S.women_in) ∧
      s.S.men_in + s.S.women_in ≤ cfg.N ∧
      (0 < s.S.men_in → s.S.current_gender = some .MEN) ∧
      (0 < s.S.women_in → s.S.current_gender = some .WOMEN) := by
  intro s h _
  have hinv := inv_reachable h
  have hmen := hinv.coherent .MEN
  have hwomen := hinv.coherent .WOMEN
  refine ⟨⟨?_, ?_⟩, ?_, hinv.in_le, hmen, hwomen⟩
  · exact (hinv.inside .MEN).trans (census_insideWeight cfg s .MEN)
  · exact (hinv.inside .WOMEN).trans (census_insideWeight cfg s .WOMEN)
  · rintro ⟨hm, hw⟩
    have := (hmen hm).symm.trans (hwomen hw)
    simp at this

end steps

/-- The man of `couple` has entered. -/
theorem shower_safety_couple : ∃ s, (shower couple).Reachable s ∧ s.S.men_in = 1 ∧
    s.S.current_gender = some .MEN ∧ s.S.women_in ≤ 1 := by
  have hrun : (replayInit couple [0, 0, 0, 0, 0, 0]).any (fun s =>
      s.sem .MUTEX == 1 && s.S.men_in == 1) = true := by
    decide +kernel
  obtain ⟨s, hs, hprop⟩ := (Option.any_eq_true _ _).mp hrun
  simp only [Bool.and_eq_true, beq_iff_eq] at hprop
  have hreach := reachable_of_replayInit hs
  obtain ⟨_, _, hle, hmen, _⟩ := shower_safety couple s hreach hprop.1
  refine ⟨s, hreach, hprop.2, hmen (by omega), ?_⟩
  simp only [couple] at hle
  omega

end Shower
