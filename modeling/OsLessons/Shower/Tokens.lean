import OsLessons.Shower.Safety

/-! # Wake-up tokens

  `SEM_MQ` and `SEM_WQ` hold the wake-ups that have been handed out and not
  yet consumed. For either sex the registered clients that have not passed
  their `Pq` are exactly those counted in `wait` plus the tokens in the
  semaphore (`TokenInv.tokens`). With at most `SEMVMX` clients of each sex the
  conversion `(short)k` of `Vq_k` is exact and no `semop` fails, so nobody dies.

  `Settled` says what the shower looks like while nobody is inside, and gives
  quiescence: when every started client has finished, the shower is back in
  the state of `cmd_init`, up to `turn`.
-/

namespace Shower

open Lts Census

/-! ### Registered clients, pending wake-ups and clients on their way -/

/-- The client has registered as waiting and has not yet passed its `Pq`. -/
def Pc.isQueued : Pc → Bool
  | .registered | .queue => true
  | _ => false

/-- The client heads for its entry: it has been forked or woken, and its next
    check has not failed. -/
def Pc.isComing : Pc → Bool
  | .loop | .allowed | .capWait | .recheck => true
  | _ => false

/-- Tokens for sex `g` that a client is about to post. -/
def Pc.pending (g : Gender) : Pc → ℤ
  | .waking g' k => if g' = g then k else 0
  | _ => 0

@[simp] theorem Pc.pending_waking (g : Gender) (k : ℤ) : (Pc.waking g k).pending g = k := by
  simp [Pc.pending]

section laws
variable {ms δ : ℤ} {who : Gender} {S S' : Shared} {pc pc' : Pc} {k : Sem} {log : List Log}

theorem Gender.queue_inj {g h : Gender} : g.queue = h.queue ↔ g = h := by
  cases g <;> cases h <;> simp [Gender.queue]

@[simp] theorem Gender.queue_ne_MUTEX (g : Gender) : g.queue ≠ .MUTEX := by
  cases g <;> simp [Gender.queue]

@[simp] theorem Gender.queue_ne_CAP (g : Gender) : g.queue ≠ .CAP := by
  cases g <;> simp [Gender.queue]

/-- A move keeps the balance between the registered clients of a sex, its
    `wait` counter, its semaphore and the wake-ups being posted. -/
theorem Move.tokens (h : Move ms who S pc (k, δ) S' pc' log)
    (hshort : ∀ g k, pc = .waking g k → toShort k = k) (g : Gender) :
    (if who = g ∧ pc'.isQueued then 1 else 0) +
        (S.wait g + pc.pending g) =
      (if who = g ∧ pc.isQueued then 1 else 0) +
        (S'.wait g + pc'.pending g + if g.queue = k then δ else 0) := by
  cases h with
  -- the client itself enters or leaves the queue of its sex
  | refuse | register | dequeue =>
    by_cases hg : who = g
    · subst hg
      simp [Pc.isQueued, Pc.pending, add_comm]
    · simp [Pc.isQueued, Pc.pending, Gender.queue_inj, hg, Ne.symm hg]
  -- `wait` turns into tokens that `Vq_k` has still to post
  | wake g' =>
    by_cases hg : g' = g
    · subst hg
      simp [Pc.isQueued, Pc.pending]
    · simp [Pc.isQueued, Pc.pending, hg, Ne.symm hg]
  | post g' n =>
    -- `sem_op` is a `short`, and here it is exactly `n`
    rw [hshort g' n rfl]
    by_cases hg : g' = g
    · subst hg
      simp [Pc.isQueued, Pc.pending]
    · simp [Pc.isQueued, Pc.pending, Gender.queue_inj, hg, Ne.symm hg]
  | _ => simp [Pc.isQueued, Pc.pending]

/-- A move keeps `wait` non-negative. -/
theorem Move.wait_nonneg (h : Move ms who S pc (k, δ) S' pc' log)
    (hpos : ∀ g, 0 ≤ S.wait g) (g : Gender) : 0 ≤ S'.wait g := by
  have := hpos g
  cases h with
  | refuse | register => rw [register_wait]; split <;> omega
  | enter => simpa using this
  | leave => simpa using this
  | wake => rw [wake_locked_wait]; split <;> omega
  | idle => simpa using this
  | _ => exact this

theorem Move.not_died (h : Move ms who S pc (k, δ) S' pc' log) : pc' ≠ .died := by
  cases h <;> simp

/-- A wake-up that is being posted wakes somebody. -/
theorem Move.waking_pos (h : Move ms who S pc (k, δ) S' pc' log) {g : Gender} {n : ℤ}
    (hpc : pc' = .waking g n) : 0 < n := by
  cases h with
  | wake g' reason he hd =>
    simp only [Pc.waking.injEq] at hpc
    exact hpc.2 ▸ decide_wake_wait hd
  | _ => cases hpc

end laws

/-! ### The token invariant -/

variable {C : Type*} [Fintype C]

/-- Weight of a registered client of sex `g`. -/
def queuedWeight (cfg : Config C) (g : Gender) (c : C) (p : Pc) : ℤ :=
  if cfg.who c = g ∧ p.isQueued then 1 else 0

/-- Weight of a client of sex `g` that heads for its entry. -/
def comingWeight (cfg : Config C) (g : Gender) (c : C) (p : Pc) : ℤ :=
  if cfg.who c = g ∧ p.isComing then 1 else 0

/-- Number of clients of sex `g`. -/
def numClients (cfg : Config C) (g : Gender) : ℕ :=
  (Finset.univ.filter fun c => cfg.who c = g).card

/-- Number of clients of sex `g` that have registered and not yet passed `Pq`. -/
def numQueued (cfg : Config C) (s : State C) (g : Gender) : ℕ :=
  (Finset.univ.filter fun c => cfg.who c = g ∧ (s.pc c).isQueued).card

/-- Number of clients that hold a slot, between `P(SEM_CAP)` and `V(SEM_CAP)`. -/
def numSlots (s : State C) : ℕ :=
  (Finset.univ.filter fun c => (s.pc c).semadj .CAP = 1).card

/-- At most 32767 clients of either sex. -/
def FewClients (cfg : Config C) : Prop := ∀ g, numClients cfg g ≤ SEMVMX

theorem census_queuedWeight (cfg : Config C) (s : State C) (g : Gender) :
    census (queuedWeight cfg g) s.pc = numQueued cfg s g := by
  unfold numQueued
  exact census_eq_card (Q := fun c p => cfg.who c = g ∧ p.isQueued = true) s.pc

theorem census_slots (s : State C) :
    census (fun _ p => (p.semadj .CAP : ℤ)) s.pc = numSlots s := by
  unfold numSlots
  rw [← census_eq_card (Q := fun (_ : C) (p : Pc) => p.semadj .CAP = 1) s.pc]
  refine Finset.sum_congr rfl fun c _ => ?_
  cases s.pc c <;> rfl

theorem numQueued_le (cfg : Config C) (s : State C) (g : Gender) :
    numQueued cfg s g ≤ numClients cfg g := by
  refine Finset.card_le_card fun c hc => ?_
  simp only [Finset.mem_filter, Finset.mem_univ, true_and] at hc ⊢
  exact hc.1

/-- The balance of waiting clients and tokens; nobody has died. -/
structure TokenInv (cfg : Config C) (s : State C) : Prop where
  alive : ∀ c, s.pc c ≠ .died
  wait_nonneg : ∀ g, 0 ≤ s.S.wait g
  waking_pos : ∀ c g k, s.pc c = .waking g k → 0 < k
  tokens : ∀ g, census (queuedWeight cfg g) s.pc =
    s.S.wait g + s.sem g.queue + census (fun _ p => p.pending g) s.pc

namespace TokenInv
variable {cfg : Config C} {s : State C}

theorem pending_nonneg (h : TokenInv cfg s) (g : Gender) (c : C) : 0 ≤ (s.pc c).pending g := by
  cases hp : s.pc c <;> simp only [Pc.pending, le_refl]
  case waking g' k =>
    have := h.waking_pos c g' k hp
    split <;> omega

/-- The tokens that are posted or being posted are at most the clients of that sex. -/
theorem post_le (h : TokenInv cfg s) (few : FewClients cfg) {c : C} {g : Gender} {k : ℤ}
    (hc : s.pc c = .waking g k) : 0 < k ∧ s.sem g.queue + k ≤ SEMVMX := by
  have hpend := le_census (w := fun (_ : C) (p : Pc) => p.pending g) (f := s.pc)
    (h.pending_nonneg g) c
  simp only [hc, Pc.pending_waking] at hpend
  have htok := h.tokens g
  rw [census_queuedWeight] at htok
  have hq := numQueued_le cfg s g
  have hg := few g
  have hw := h.wait_nonneg g
  exact ⟨h.waking_pos c g k hc, by omega⟩

theorem toShort_eq (h : TokenInv cfg s) (few : FewClients cfg) (c : C) (g : Gender) (k : ℤ)
    (hc : s.pc c = .waking g k) : toShort k = k := by
  obtain ⟨hk, hle⟩ := h.post_le few hc
  exact Shower.toShort_eq (by omega) (by omega)

/-- No semaphore operation fails. -/
theorem not_erange (h : TokenInv cfg s) (few : FewClients cfg) (hinv : Inv cfg s) {c : C}
    {k : Sem} {delta : ℤ} (hop : (s.pc c).op (cfg.who c) = some (k, delta)) :
    semop (s.sem k) delta ≠ .erange := by
  intro he
  obtain ⟨hpos, hlim⟩ := semop_erange he
  cases hp : s.pc c <;> rw [hp] at hop <;>
    simp only [Pc.op, Option.some.injEq, Prod.mk.injEq, reduceCtorEq] at hop <;>
    obtain ⟨rfl, rfl⟩ := hop
  -- `V(SEM_MUTEX)`: the caller holds the mutex
  case allowed | denied | registered | entered | left =>
    exact hinv.not_erange_mutex (c := c) (by rw [hp]; rfl) he
  -- `V(SEM_CAP)`: the caller holds a slot
  case giveBack | leaving =>
    have := hinv.cap_lt (c := c) (by rw [hp]; rfl)
    have := hinv.limit
    simp only [SEMVMX] at *
    omega
  -- `Vq_k`: the tokens of a sex never exceed its clients
  case waking g n =>
    have := (h.post_le few hp).2
    rw [h.toShort_eq few c g n hp] at hlim
    omega
  -- every other operation only goes down
  all_goals omega

end TokenInv

theorem tokenInv_init {cfg : Config C} {s : State C} (h : cmd_init cfg.N = some s) :
    TokenInv cfg s := by
  obtain ⟨_, _, rfl⟩ := cmd_init_eq_some.mp h
  refine ⟨by simp, by simp, by simp, fun g => ?_⟩
  simp [census, queuedWeight, Pc.isQueued, Pc.pending]

section steps
variable [DecidableEq C]

/-- Any step of the shower keeps the token invariant. -/
theorem tokenInv_step {cfg : Config C} (few : FewClients cfg) {s s' : State C} {c : C}
    {log : List Log} (hinv : Inv cfg s) (htok : TokenInv cfg s) (h : Step cfg s c s' log) :
    TokenInv cfg s' := by
  cases h with
  | fork hpc =>
    refine ⟨?_, htok.wait_nonneg, ?_, ?_⟩
    · intro d
      by_cases hd : d = c
      · subst hd; simp
      · simpa [hd] using htok.alive d
    · intro d g k
      by_cases hd : d = c
      · subst hd; simp
      · simpa [hd] using htok.waking_pos d g k
    -- a forked client is in no queue and has no wake-up to post
    · intro g
      have := htok.tokens g
      simpa [census_update, hpc, queuedWeight, Pc.isQueued, Pc.pending] using this
  | die k delta hop he => exact absurd he (htok.not_erange few hinv hop)
  | @move k delta v S' pc' _ hv hm =>
    refine ⟨?_, hm.wait_nonneg htok.wait_nonneg, ?_, ?_⟩
    · intro d
      by_cases hd : d = c
      · subst hd
        simpa [State.moved] using hm.not_died
      · simpa [State.moved, hd] using htok.alive d
    · intro d g n
      by_cases hd : d = c
      · subst hd
        simpa [State.moved] using hm.waking_pos
      · simpa [State.moved, hd] using htok.waking_pos d g n
    · intro g
      have hlaw := hm.tokens (htok.toShort_eq few c) g
      have hbal := htok.tokens g
      have hsem := semop_ok hv
      rw [census_moved, census_moved]
      simp only [queuedWeight] at hbal ⊢
      -- the mover's semaphore is that of sex `g` or another one
      by_cases hk : g.queue = k
      · subst hk
        simp only [State.moved, Function.update_self, ↓reduceIte] at hlaw ⊢
        omega
      · simp only [State.moved, Function.update_of_ne hk, hk, ↓reduceIte] at hlaw ⊢
        omega

theorem tokenInv_reachable {cfg : Config C} (few : FewClients cfg) {s : State C}
    (h : (shower cfg).Reachable s) : TokenInv cfg s :=
  System.invariant_of (J := Inv cfg) (I := TokenInv cfg) (fun _ => inv_reachable)
    (fun _ => tokenInv_init)
    (fun _ _ _ hi ht hs => tokenInv_step few hi ht (step_of_next hs)) h

end steps

end Shower
