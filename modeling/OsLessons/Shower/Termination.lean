import OsLessons.Shower.Wakeup

/-! # The shower: everybody gets in

  A client that enters pays in advance for the wake-ups it may post when it
  leaves, and every wake-up pays for one more round through `enter_gender`. So
  every run ends, and with `KeepsWaker` it can only end when all clients have
  entered and left (`everybody_enters`).
-/

namespace Shower

open Lts Census

/-! ### A potential -/

/-- What a client may still spend, if there are `n` of them. A wake-up is worth
    nine: `Pq` and the eight operations of a round that ends in `Pq` again. -/
def Pc.weight (n : ℕ) : Pc → ℤ
  | .notStarted => 9 * n + 14
  | .loop => 9 * n + 13
  | .allowed => 9 * n + 12
  | .capWait => 9 * n + 11
  | .recheck => 9 * n + 10
  | .denied => 9 * n + 9
  | .giveBack => 9 * n + 8
  | .register => 9 * n + 7
  | .registered => 9 * n + 6
  | .queue => 9 * n + 5
  | .entered => 9 * n + 5
  | .inside => 9 * n + 4
  | .leaving => 9 * n + 3
  | .waking _ k => 9 * k + 2
  | .left => 1
  | .finished | .died => 0

/-- What an operation adds to the wake-ups that are posted. -/
def posted (k : Sem) (δ : ℤ) : ℤ :=
  match k with
  | .MQ | .WQ => δ
  | .MUTEX | .CAP => 0

@[simp] theorem posted_queue (g : Gender) (δ : ℤ) : posted g.queue δ = δ := by
  cases g <;> rfl

theorem Move.pays {ms δ : ℤ} {n : ℕ} {who : Gender} {S S' : Shared} {pc pc' : Pc} {k : Sem}
    {log : List Log} (h : Move ms who S pc (k, δ) S' pc' log)
    (hshort : ∀ g k, pc = .waking g k → toShort k = k) (hwait : ∀ g, S.wait g ≤ n) :
    pc'.weight n + 9 * posted k δ + 1 ≤ pc.weight n := by
  cases h with
  | dequeue =>
    simp only [Pc.weight, posted_queue]
    omega
  | wake g reason =>
    have hg := hwait g
    simp only [Pc.weight, posted]
    omega
  | post g j =>
    rw [hshort g j rfl]
    simp only [Pc.weight, posted_queue]
    omega
  | _ =>
    simp only [Pc.weight, posted]
    omega

/-- A client prints its `ENTER` once. -/
def Pc.hasEntered : Pc → Bool
  | .entered | .inside | .leaving | .waking _ _ | .left | .finished => true
  | _ => false

theorem Move.enters {ms δ : ℤ} {who : Gender} {S S' : Shared} {pc pc' : Pc} {k : Sem}
    {log : List Log} (h : Move ms who S pc (k, δ) S' pc' log) :
    log.count (.enter who) + pc.hasEntered.toNat = pc'.hasEntered.toNat := by
  cases h with
  | enter => simp [Pc.hasEntered]
  | _ => rfl

variable {C : Type*} [Fintype C] {cfg : Config C} {s s' : State C}

def potential (s : State C) : ℤ :=
  census (fun _ p => Pc.weight (Fintype.card C) p) s.pc + 9 * (s.sem .MQ + s.sem .WQ)

theorem potential_nonneg (h : TokenInv cfg s) : 0 ≤ potential s := by
  have hweight : ∀ c, 0 ≤ (s.pc c).weight (Fintype.card C) := by
    intro c
    cases hpc : s.pc c with
    | waking g k =>
      have hk := h.waking_pos c g k hpc
      simp only [Pc.weight]
      omega
    | _ =>
      simp only [Pc.weight]
      omega
  have hcensus := census_nonneg (w := fun (_ : C) p => Pc.weight (Fintype.card C) p) hweight
  unfold potential
  omega

theorem potential_init {s₀ : State C} (h : cmd_init cfg.N = some s₀) :
    potential s₀ = (Fintype.card C * (9 * Fintype.card C + 14) : ℕ) := by
  obtain ⟨_, _, rfl⟩ := cmd_init_eq_some.mp h
  simp [potential, census, initState, Pc.weight]

theorem TokenInv.wait_le (h : TokenInv cfg s) (g : Gender) : s.S.wait g ≤ Fintype.card C := by
  have htokens := h.tokens g
  rw [census_queuedWeight] at htokens
  have hpend := census_nonneg (w := fun (_ : C) (p : Pc) => p.pending g) (h.pending_nonneg g)
  have hqueued := numQueued_le cfg s g
  have hclients : numClients cfg g ≤ Fintype.card C := Finset.card_le_univ _
  omega

theorem posted_update (sem : Sem → ℕ) {k : Sem} {v : ℕ} {δ : ℤ} (hv : semop (sem k) δ = .ok v) :
    ((Function.update sem k v .MQ : ℕ) : ℤ) + (Function.update sem k v .WQ : ℕ) =
      sem .MQ + sem .WQ + posted k δ := by
  have hval := semop_ok hv
  cases k with
  | MUTEX | CAP => simp [posted]
  | MQ =>
    simp only [Function.update_self, posted, ne_eq, reduceCtorEq, not_false_eq_true,
      Function.update_of_ne]
    omega
  | WQ =>
    simp only [Function.update_self, posted, ne_eq, reduceCtorEq, not_false_eq_true,
      Function.update_of_ne]
    omega

section steps
variable [DecidableEq C]

theorem potential_step (few : FewClients cfg) (h : (shower cfg).Reachable s) {e : Event C}
    (hstep : (shower cfg).step s e s') : potential s' + 1 ≤ potential s := by
  have htok := tokenInv_reachable few h
  obtain ⟨c, log⟩ := e
  have hs : Step cfg s c s' log := step_of_next hstep
  unfold potential
  cases hs with
  | fork hpc =>
    rw [census_update, hpc]
    simp only [Pc.weight]
    omega
  | die k delta hop he => exact absurd he (htok.not_erange few (inv_reachable h) hop)
  | @move k delta v S' pc' _ hv hm =>
    have hpays := hm.pays (htok.toShort_eq few c) htok.wait_le
    have hposted := posted_update s.sem hv
    rw [State.moved, census_update]
    dsimp only
    omega

/-! ### Nobody can go on -/

/-- Who cannot move where nobody can has finished, or waits in `Pq` for a token;
    an idle shower that keeps a waker has nobody in `Pq`. -/
theorem finished_of_stuck (few : FewClients cfg) (hN : 1 ≤ cfg.N)
    (h : ((shower cfg).restrict (KeepsWaker cfg)).Reachable s)
    (hstuck : ∀ c, ¬ CanStep cfg s c) (c : C) : s.pc c = .finished := by
  have hinv := inv_reachable h.of_restrict
  have htok := tokenInv_reachable few h.of_restrict
  have hpcs : ∀ d, s.pc d = .finished ∨ s.pc d = .queue ∧ s.sem (cfg.who d).queue = 0 := by
    intro d
    rcases stuck_pc few hN hinv htok (fun d _ => hstuck d) d with hd | hd | hd
    · refine absurd ?_ (hstuck d)
      rw [CanStep, next, if_pos hd]
      rfl
    · exact .inl hd
    · exact .inr hd
  rcases hpcs c with hc | ⟨hc, _⟩
  · exact hc
  exfalso
  have hzero : ∀ w : C → Pc → ℤ, (∀ d, w d .finished = 0 ∧ w d .queue = 0) →
      census w s.pc = 0 := by
    intro w hw
    refine census_zero fun d => ?_
    rcases hpcs d with hd | ⟨hd, _⟩
    · rw [hd, (hw d).1]
    · rw [hd, (hw d).2]
  -- tokens stand for clients in `Pq`, and these have none
  have hnoTok : ∀ g : Gender, s.sem g.queue = 0 := by
    intro g
    by_contra hne
    have htokens := htok.tokens g
    have hwait := htok.wait_nonneg g
    rw [hzero (fun _ p => p.pending g) fun _ => ⟨rfl, rfl⟩] at htokens
    obtain ⟨d, hd⟩ := exists_of_census_pos (w := queuedWeight cfg g) (f := s.pc) (by omega)
    unfold queuedWeight at hd
    split at hd
    · next hq =>
      rcases hpcs d with hfin | ⟨_, hnone⟩
      · rw [hfin] at hq
        cases hq.2
      · exact hne (hq.1 ▸ hnone)
    · cases hd
  have hunder : ∀ g, underway cfg s g = 0 := by
    intro g
    unfold underway
    rw [hnoTok g, hzero (comingWeight cfg g) fun d => by simp [comingWeight, Pc.isComing],
      hzero (fun _ p => p.pending g) fun _ => ⟨rfl, rfl⟩]
    rfl
  have hempty : s.S.empty = true := by
    refine s.S.empty_iff.mpr fun g => ?_
    rw [hinv.inside g]
    exact hzero _ fun d => by simp [insideWeight, Pc.isInside]
  cases hcur : s.S.current_gender with
  | none =>
    have hwait : 0 < s.S.wait (cfg.who c) := by
      have hle := le_census (w := queuedWeight cfg (cfg.who c)) (f := s.pc)
        (fun d => by unfold queuedWeight; split <;> omega) c
      have htokens := htok.tokens (cfg.who c)
      simp only [queuedWeight, hc, Pc.isQueued, and_self, ↓reduceIte] at hle
      rw [hnoTok, hzero (fun _ p => p.pending (cfg.who c)) fun _ => ⟨rfl, rfl⟩] at htokens
      omega
    have hsome := tended_reachable few h hcur _ hwait
    rw [hunder, hunder] at hsome
    exact absurd hsome (lt_irrefl _)
  | some g =>
    have hnone : NoneLeaving s := by
      intro d hd
      rcases hpcs d with h' | ⟨h', _⟩ <;> rw [hd] at h' <;> cases h'
    have hsome := (settled_reachable few h.of_restrict).covered hnone hempty g hcur
    rw [hunder] at hsome
    exact absurd hsome (lt_irrefl _)

/-- The `ENTER` lines of a client. -/
def entriesBy (cfg : Config C) (c : C) (es : List (Event C)) : ℕ :=
  ((es.filter fun e => e.client = c).flatMap Event.log).count (.enter (cfg.who c))

omit [Fintype C] in
theorem entriesBy_step {e : Event C} (hstep : (shower cfg).step s e s')
    (halive : ∀ c, s'.pc c ≠ .died) (c : C) :
    entriesBy cfg c [e] + (s.pc c).hasEntered.toNat = (s'.pc c).hasEntered.toNat := by
  obtain ⟨d, log⟩ := e
  have hs : Step cfg s d s' log := step_of_next hstep
  by_cases hd : d = c
  · subst hd
    have hone : entriesBy cfg d [⟨d, log⟩] = log.count (.enter (cfg.who d)) := by
      simp [entriesBy]
    rw [hone]
    cases hs with
    | fork hpc =>
      show _ = (Function.update s.pc d .loop d).hasEntered.toNat
      rw [hpc, Function.update_self]
      rfl
    | die => exact absurd (Function.update_self _ _ _) (halive d)
    | @move _ _ _ _ pc' _ hv hm =>
      show _ = (Function.update s.pc d pc' d).hasEntered.toNat
      rw [Function.update_self]
      exact hm.enters
  · have hnone : entriesBy cfg c [⟨d, log⟩] = 0 := by
      simp [entriesBy, hd]
    have hsame : s'.pc c = s.pc c := by
      cases hs <;> exact Function.update_of_ne (Ne.symm hd) _ _
    rw [hnone, hsame, Nat.zero_add]

omit [Fintype C] in
theorem entriesBy_run {G : State C → Event C → Prop} {es : List (Event C)}
    (hrun : ((shower cfg).restrict G).Run s es s')
    (halive : ∀ s, ((shower cfg).restrict G).Reachable s → ∀ c, s.pc c ≠ .died)
    (h : ((shower cfg).restrict G).Reachable s) (c : C) :
    entriesBy cfg c es + (s.pc c).hasEntered.toNat = (s'.pc c).hasEntered.toNat := by
  induction hrun with
  | nil s => simp [entriesBy]
  | @cons s s₁ s₂ e es hstep _ ih =>
    have hcons : entriesBy cfg c (e :: es) = entriesBy cfg c [e] + entriesBy cfg c es := by
      simp only [entriesBy, ← List.count_append, ← List.flatMap_append, ← List.filter_append]
      rfl
    have hone := entriesBy_step hstep.2 (halive _ (h.step hstep)) c
    rw [← ih (h.step hstep), ← hone, hcons]
    omega

/-- **Everybody gets in**: with `n` clients a run has at most `n * (9 * n + 14)`
    steps. If its steps meet `KeepsWaker` and nobody can move at its end, then
    every client has entered the shower exactly once and has finished. -/
theorem everybody_enters (cfg : Config C) (few : FewClients cfg) (hN : 1 ≤ cfg.N)
    {s₀ : State C} (h₀ : cmd_init cfg.N = some s₀) (es : List (Event C)) (s : State C) :
    ((shower cfg).Run s₀ es s →
      es.length ≤ Fintype.card C * (9 * Fintype.card C + 14)) ∧
    (((shower cfg).restrict (KeepsWaker cfg)).Run s₀ es s → (∀ c, ¬ CanStep cfg s c) →
      ∀ c, s.pc c = .finished ∧ entriesBy cfg c es = 1) := by
  have hinit : (shower cfg).Reachable s₀ := .init h₀
  refine ⟨fun hrun => ?_, fun hrun hstuck c => ?_⟩
  · have hlen := System.Run.length_le (fun s => (potential s).toNat) ?_ hrun hinit
    · rw [potential_init h₀] at hlen
      omega
    · intro s e s' hs hstep
      have hpays := potential_step few hs hstep
      have hnonneg := potential_nonneg (tokenInv_reachable few (hs.step hstep))
      omega
  · have hfin := finished_of_stuck few hN (hrun.reachable (.init h₀)) hstuck c
    have hentries := entriesBy_run hrun
      (fun s hs => (tokenInv_reachable few hs.of_restrict).alive) (.init h₀) c
    obtain ⟨_, _, rfl⟩ := cmd_init_eq_some.mp h₀
    rw [hfin] at hentries
    exact ⟨hfin, hentries⟩

end steps

/-- The woman waits for the man and is woken by him. -/
theorem everybody_enters_couple : ∃ s₀ es s, cmd_init couple.N = some s₀ ∧
    (shower couple).Run s₀ es s ∧ es.length ≤ 64 ∧
    ∀ c, s.pc c = .finished ∧ entriesBy couple c es = 1 := by
  have hrun : (System.replay (fun s c => (nextEvent couple s c).filter fun r => keepsWaker s r.2)
      (initState couple.N) ([0, 0, 0, 0, 0, 0] ++ [1, 1, 1] ++ [0, 0, 0, 0] ++
        [1, 1, 1, 1, 1, 1, 1, 1, 1])).any (fun r => decide (∀ c, ¬ CanStep couple r.1 c)) =
      true := by
    decide +kernel
  obtain ⟨⟨s, es⟩, hreplay, hstuck⟩ := (Option.any_eq_true _ _).mp hrun
  have hguarded : ((shower couple).restrict (KeepsWaker couple)).Run (initState couple.N) es s := by
    refine System.Run.of_replay (fun s c s' e hnext => ?_) hreplay
    obtain ⟨hnext, hkeeps⟩ := Option.filter_eq_some_iff.mp hnext
    exact ⟨(keepsWaker_iff s e).mp hkeeps, step_of_nextEvent hnext⟩
  have hinit : cmd_init couple.N = some (initState couple.N : State (Fin 2)) := rfl
  obtain ⟨hlen, hends⟩ := everybody_enters couple couple_few (by decide) hinit es s
  exact ⟨_, es, s, hinit, hguarded.of_restrict, hlen hguarded.of_restrict,
    hends hguarded (of_decide_eq_true hstuck)⟩

end Shower
