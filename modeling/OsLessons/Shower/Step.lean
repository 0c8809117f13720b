import OsLessons.Shower.Model

/-! # What one step of a client can do

  The updates of `state_t` in terms of `in_`, `wait` and `streak`, the tests
  of `enter_gender` and `leave_gender` in the same terms, and `Move`: the
  list of everything a semaphore operation with its local code can do. Later
  proofs go by cases on `Move` and never unfold `next` or `Pc.after`.
-/

namespace Shower

open Lts

/-! ### The updates, sex by sex -/

section updates
variable (who g : Gender) (S : Shared)

@[simp] theorem register_in_ : (register who S).in_ g = S.in_ g := by
  cases who <;> cases g <;> rfl

@[simp] theorem register_wait :
    (register who S).wait g = S.wait g + if g = who then 1 else 0 := by
  cases who <;> cases g <;> simp [register, Shared.wait]

@[simp] theorem register_streak : (register who S).streak g = S.streak g := by
  cases who <;> cases g <;> rfl

@[simp] theorem register_current_gender :
    (register who S).current_gender = S.current_gender := by
  cases who <;> rfl

@[simp] theorem register_turn : (register who S).turn = S.turn := by
  cases who <;> rfl

@[simp] theorem register_N : (register who S).N = S.N := by
  cases who <;> rfl

@[simp] theorem enter_in_ :
    (enter who S).in_ g = S.in_ g + if g = who then 1 else 0 := by
  cases who <;> cases g <;> simp [enter, Shared.in_]

@[simp] theorem enter_wait : (enter who S).wait g = S.wait g := by
  cases who <;> cases g <;> rfl

@[simp] theorem enter_streak :
    (enter who S).streak g = if g = who then S.streak g + 1 else 0 := by
  cases who <;> cases g <;> simp [enter, Shared.streak]

@[simp] theorem enter_current_gender : (enter who S).current_gender = some who := by
  cases who <;> rfl

@[simp] theorem enter_turn : (enter who S).turn = S.turn := by
  cases who <;> rfl

@[simp] theorem enter_N : (enter who S).N = S.N := by
  cases who <;> rfl

@[simp] theorem leave_in_ :
    (leave who S).in_ g = S.in_ g - if g = who then 1 else 0 := by
  cases who <;> cases g <;> simp [leave, Shared.in_]

@[simp] theorem leave_wait : (leave who S).wait g = S.wait g := by
  cases who <;> cases g <;> rfl

@[simp] theorem leave_streak : (leave who S).streak g = S.streak g := by
  cases who <;> cases g <;> rfl

@[simp] theorem leave_current_gender :
    (leave who S).current_gender = S.current_gender := by
  cases who <;> rfl

@[simp] theorem leave_turn : (leave who S).turn = S.turn := by
  cases who <;> rfl

@[simp] theorem leave_N : (leave who S).N = S.N := by
  cases who <;> rfl

@[simp] theorem wake_locked_in_ : (wake_locked who S).in_ g = S.in_ g := by
  cases who <;> cases g <;> rfl

@[simp] theorem wake_locked_wait :
    (wake_locked who S).wait g = if g = who then 0 else S.wait g := by
  cases who <;> cases g <;> rfl

@[simp] theorem wake_locked_streak : (wake_locked who S).streak g = 0 := by
  cases who <;> cases g <;> rfl

@[simp] theorem wake_locked_current_gender :
    (wake_locked who S).current_gender = some who := by
  cases who <;> rfl

@[simp] theorem wake_locked_turn : (wake_locked who S).turn = who.other := by
  cases who <;> rfl

@[simp] theorem wake_locked_N : (wake_locked who S).N = S.N := by
  cases who <;> rfl

@[simp] theorem go_idle_in_ : (go_idle S).in_ g = S.in_ g := by
  cases g <;> rfl

@[simp] theorem go_idle_wait : (go_idle S).wait g = S.wait g := by
  cases g <;> rfl

@[simp] theorem go_idle_streak : (go_idle S).streak g = 0 := by
  cases g <;> rfl

@[simp] theorem go_idle_current_gender : (go_idle S).current_gender = none := rfl

@[simp] theorem go_idle_turn : (go_idle S).turn = S.turn := rfl

@[simp] theorem go_idle_N : (go_idle S).N = S.N := rfl

end updates

/-! ### The tests -/

/-- The condition under which `enter_gender` lets a client of sex `who` pass. -/
theorem allow_iff {ms : ℤ} {who : Gender} {S : Shared} :
    allow ms who S = true ↔
      (S.current_gender = none ∨ S.current_gender = some who) ∧
      S.in_ who.other ≤ 0 ∧
      ¬ (ms ≤ S.streak who ∧ 0 < S.wait who.other ∧ S.current_gender ≠ some who.other) := by
  cases who <;>
    simp only [allow, cur_none_or_me, other_inside, fairness_block, Shared.in_, Shared.streak,
      Shared.wait, Gender.other, Bool.and_eq_true, Bool.or_eq_true, beq_iff_eq,
      Bool.not_eq_true', decide_eq_false_iff_not, not_lt, Bool.and_eq_false_iff,
      bne_eq_false_iff_eq, ne_eq, not_and, not_not, and_assoc, and_congr_right_iff] <;>
    grind

/-- Whoever is woken was waiting. -/
theorem decide_wake_wait {ms : ℤ} {S : Shared} {g : Gender} {r : String}
    (h : decide_wake ms S = some (g, r)) : 0 < S.wait g := by
  unfold decide_wake at h
  split at h
  · next hw =>
    cases h
    exact hw.1
  · split at h
    · next hm =>
      cases h
      exact hm.1
    · split at h
      · next hb =>
        repeat' split at h
        all_goals
          cases h
          first | exact hb.1 | exact hb.2
      · cases h

/-- With both sexes waiting, a sex is woken because the other one has used up
    its streak, or because it is its turn. -/
theorem decide_wake_both {ms : ℤ} {S : Shared} {g : Gender} {r : String}
    (h : decide_wake ms S = some (g, r)) (hother : 0 < S.wait g.other) :
    (ms ≤ S.streak g.other ∧ S.streak g < ms) ∨
    (¬ (ms ≤ S.streak g ∧ S.streak g.other < ms) ∧ S.turn = g) := by
  unfold decide_wake at h
  split at h
  · next hw =>
    cases h
    simp only [Gender.other, Shared.wait] at hother
    omega
  · split at h
    · next hm =>
      cases h
      simp only [Gender.other, Shared.wait] at hother
      omega
    · split at h
      · split at h
        · next hs =>
          cases h
          exact .inl hs
        · next hns =>
          split at h
          · next hs =>
            cases h
            exact .inl hs
          · next hns' =>
            split at h
            · next ht =>
              cases h
              exact .inr ⟨hns', ht⟩
            -- `turn` is neither sex's streak, so it is the men's turn
            · next ht =>
              cases h
              exact .inr ⟨hns, by cases hturn : S.turn <;> simp_all⟩
      · cases h

/-- If nobody is woken, nobody waits. -/
theorem decide_wake_none {ms : ℤ} {S : Shared} (hpos : ∀ g, 0 ≤ S.wait g)
    (h : decide_wake ms S = none) (g : Gender) : S.wait g = 0 := by
  have hm := hpos .MEN
  have hw := hpos .WOMEN
  unfold decide_wake at h
  simp only [Shared.wait] at hm hw
  repeat' split at h
  all_goals cases h
  cases g <;> simp only [Shared.wait] <;> omega

/-! ### Moves -/

/-- `Move ms who S pc op S' pc' log`: with the mutex discipline respected, a
    client of sex `who` at `pc` performs the semaphore operation `op`, turns
    `S` into `S'`, prints `log` and goes on to `pc'`. -/
inductive Move (ms : ℤ) (who : Gender) (S : Shared) :
    Pc → Sem × ℤ → Shared → Pc → List Log → Prop where
  -- `enter_gender`
  | pass : allow ms who S = true → Move ms who S .loop (.MUTEX, -1) S .allowed []
  | refuse : allow ms who S = false →
      Move ms who S .loop (.MUTEX, -1) (register who S) .registered [.wait who false]
  | unlockAllowed : Move ms who S .allowed (.MUTEX, 1) S .capWait []
  | takeSlot : Move ms who S .capWait (.CAP, -1) S .recheck []
  | enter : allow ms who S = true →
      Move ms who S .recheck (.MUTEX, -1) (enter who S) .entered [.enter who]
  | deny : allow ms who S = false → Move ms who S .recheck (.MUTEX, -1) S .denied []
  | unlockDenied : Move ms who S .denied (.MUTEX, 1) S .giveBack []
  | giveBack : Move ms who S .giveBack (.CAP, 1) S .register []
  | register :
      Move ms who S .register (.MUTEX, -1) (register who S) .registered [.wait who true]
  | unlockRegistered : Move ms who S .registered (.MUTEX, 1) S .queue []
  | dequeue : Move ms who S .queue (who.queue, -1) S .loop []
  | unlockEntered : Move ms who S .entered (.MUTEX, 1) S .inside []
  -- `leave_gender`
  | leave : Move ms who S .inside (.MUTEX, -1) (leave who S) .leaving []
  | wake (g : Gender) (reason : String) :
      S.empty = true → decide_wake ms S = some (g, reason) →
      Move ms who S .leaving (.CAP, 1) (wake_locked g S) (.waking g (S.wait g))
        [.switch g (S.wait g) reason]
  | idle : S.empty = true → decide_wake ms S = none →
      Move ms who S .leaving (.CAP, 1) (go_idle S) .left [.leave who]
  | stay : S.empty = false → Move ms who S .leaving (.CAP, 1) S .left [.leave who]
  | post (g : Gender) (k : ℤ) :
      Move ms who S (.waking g k) (g.queue, toShort k) S .left [.leave who]
  | unlockLeft : Move ms who S .left (.MUTEX, 1) S .finished []

/-- `Move` covers the code. -/
theorem move_of_after {ms : ℤ} {who : Gender} {S S' : Shared} {pc pc' : Pc}
    {op : Sem × ℤ} {log : List Log} (hop : pc.op who = some op)
    (h : pc.after ms who S = (S', pc', log)) : Move ms who S pc op S' pc' log := by
  -- the points with a decision first; at the others there is one way on
  cases pc with
  | loop =>
    simp only [Pc.op, Option.some.injEq] at hop
    simp only [Pc.after] at h
    split at h
    · next ha => cases h; exact hop ▸ .pass ha
    · next ha => cases h; exact hop ▸ .refuse (by simpa using ha)
  | recheck =>
    simp only [Pc.op, Option.some.injEq] at hop
    simp only [Pc.after] at h
    split at h
    · next ha => cases h; exact hop ▸ .enter ha
    · next ha => cases h; exact hop ▸ .deny (by simpa using ha)
  | leaving =>
    simp only [Pc.op, Option.some.injEq] at hop
    simp only [Pc.after] at h
    split at h
    · next he =>
      split at h
      · next g reason hd =>
        -- a sex that is woken was waiting, so `Vq_k` is performed
        have hk : S.wait g ≠ 0 := (decide_wake_wait hd).ne'
        simp only [hk, ↓reduceIte] at h
        cases h
        exact hop ▸ .wake g reason he hd
      · next hd => cases h; exact hop ▸ .idle he hd
    · next he => cases h; exact hop ▸ .stay (by simpa using he)
  | allowed => cases h; cases hop; exact .unlockAllowed
  | capWait => cases h; cases hop; exact .takeSlot
  | denied => cases h; cases hop; exact .unlockDenied
  | giveBack => cases h; cases hop; exact .giveBack
  | register => cases h; cases hop; exact .register
  | registered => cases h; cases hop; exact .unlockRegistered
  | queue => cases h; cases hop; exact .dequeue
  | entered => cases h; cases hop; exact .unlockEntered
  | inside => cases h; cases hop; exact .leave
  | waking g k => cases h; cases hop; exact .post g k
  | left => cases h; cases hop; exact .unlockLeft
  | notStarted => cases hop
  | finished => cases hop
  | died => cases hop

variable {C : Type*} [DecidableEq C]

/-- The state after client `c` performed `op` with new value `v` and moved to `pc'`. -/
def State.moved (s : State C) (c : C) (k : Sem) (v : ℕ) (S' : Shared) (pc' : Pc) : State C :=
  { S := S', sem := Function.update s.sem k v, pc := Function.update s.pc c pc' }

/-- One step of the shower: a fork, a death in `semop`, or a move. -/
inductive Step (cfg : Config C) (s : State C) (c : C) : State C → List Log → Prop where
  | fork : s.pc c = .notStarted →
      Step cfg s c { s with pc := Function.update s.pc c .loop } []
  | die (k : Sem) (delta : ℤ) : (s.pc c).op (cfg.who c) = some (k, delta) →
      semop (s.sem k) delta = .erange → Step cfg s c (die s c) []
  | move {k : Sem} {delta : ℤ} {v : ℕ} {S' : Shared} {pc' : Pc} {log : List Log} :
      semop (s.sem k) delta = .ok v →
      Move (get_max_streak (cfg.env c) s.S.N) (cfg.who c) s.S (s.pc c) (k, delta) S' pc' log →
      Step cfg s c (s.moved c k v S' pc') log

theorem step_of_next {cfg : Config C} {s s' : State C} {c : C} {log : List Log}
    (h : next cfg s c = some (s', log)) : Step cfg s c s' log := by
  obtain ⟨hpc, rfl, rfl⟩ | ⟨k, delta, hop, he, rfl, rfl⟩ |
    ⟨k, delta, v, S', pc', hop, hv, ha, rfl⟩ := next_cases h
  · exact .fork hpc
  · exact .die k delta hop he
  · exact .move hv (move_of_after hop ha)

/-! ### Replaying a schedule -/

/-- One step of client `c`, labelled with its event. -/
def nextEvent (cfg : Config C) (s : State C) (c : C) : Option (State C × Event C) :=
  (next cfg s c).map fun r => (r.1, ⟨c, r.2⟩)

theorem step_of_nextEvent {cfg : Config C} {s s' : State C} {c : C} {e : Event C}
    (h : nextEvent cfg s c = some (s', e)) : (shower cfg).step s e s' := by
  obtain ⟨⟨s₁, log⟩, hn, heq⟩ := Option.map_eq_some_iff.mp h
  cases heq
  exact hn

/-- Let the clients move in the given order and collect the events. -/
def replay (cfg : Config C) : State C → List C → Option (State C × List (Event C)) :=
  System.replay (nextEvent cfg)

theorem run_of_replay {cfg : Config C} {s s' : State C} {cs : List C} {es : List (Event C)}
    (h : replay cfg s cs = some (s', es)) : (shower cfg).Run s es s' :=
  System.Run.of_replay (fun _ _ _ _ => step_of_nextEvent) h

/-- Replay a schedule from `cmd_init`. -/
def replayInit (cfg : Config C) (cs : List C) : Option (State C) :=
  (cmd_init cfg.N).bind fun s₀ => (replay cfg s₀ cs).map Prod.fst

theorem reachable_of_replayInit {cfg : Config C} {cs : List C} {s : State C}
    (h : replayInit cfg cs = some s) : (shower cfg).Reachable s := by
  obtain ⟨s₀, h₀, hs⟩ := Option.bind_eq_some_iff.mp h
  obtain ⟨⟨s', es⟩, hrun, heq⟩ := Option.map_eq_some_iff.mp hs
  cases heq
  exact (run_of_replay hrun).reachable (.init h₀)

/-- One man and one woman in a shower for two. -/
def couple : Config (Fin 2) where
  N := 2
  who := fun c => if c = 0 then .MEN else .WOMEN
  env := fun _ => none

/-! ### Clients among other clients

  A step of a client depends on its own program point and on the shared state
  only, so a schedule of a few clients runs in the same way among any others.
-/

/-- The clients of `small` appear among those of `big` under `ι`. -/
structure Embeds {D : Type*} (ι : D → C) (small : Config D) (big : Config C) : Prop where
  inj : Function.Injective ι
  who : ∀ d, big.who (ι d) = small.who d
  env : ∀ d, big.env (ι d) = small.env d

/-- `s` looks like `t` to the embedded clients. -/
structure Agree {D : Type*} (ι : D → C) (t : State D) (s : State C) : Prop where
  shared : s.S = t.S
  sem : s.sem = t.sem
  pc : ∀ d, s.pc (ι d) = t.pc d

section embedding
variable {D : Type*} [DecidableEq D] {ι : D → C} {small : Config D} {big : Config C}

/-- An event of an embedded client. -/
def Event.map (ι : D → C) (e : Event D) : Event C := ⟨ι e.client, e.log⟩

theorem Embeds.update (h : Embeds ι small big) {t : State D} {s : State C}
    (ha : ∀ d, s.pc (ι d) = t.pc d) (d : D) (q : Pc) (d' : D) :
    Function.update s.pc (ι d) q (ι d') = Function.update t.pc d q d' := by
  by_cases hd : d' = d
  · subst hd; simp
  · simp [hd, h.inj.ne hd, ha]

theorem next_embed (h : Embeds ι small big) {t t' : State D} {s : State C} (ha : Agree ι t s)
    {d : D} {log : List Log} (hn : next small t d = some (t', log)) :
    ∃ s', next big s (ι d) = some (s', log) ∧ Agree ι t' s' ∧
      ∀ c, c ≠ ι d → s'.pc c = s.pc c := by
  obtain ⟨hS, hsem, hpc⟩ := ha
  have hother : ∀ (q : Pc) c, c ≠ ι d → Function.update s.pc (ι d) q c = s.pc c :=
    fun q c hc => Function.update_of_ne hc _ _
  -- `next` looks at nothing in which the two states differ
  unfold next at hn ⊢
  rw [hpc d, h.who d, h.env d, hS, hsem]
  split at hn
  · next h0 =>
    cases hn
    rw [if_pos h0]
    exact ⟨_, rfl, ⟨rfl, rfl, h.update hpc d _⟩, hother _⟩
  · next h0 =>
    rw [if_neg h0]
    split at hn
    · cases hn
    · split at hn
      · cases hn
      · cases hn
        refine ⟨_, rfl, ⟨hS, ?_, h.update hpc d _⟩, hother _⟩
        simp [die, hsem, hpc d]
      · cases hn
        exact ⟨_, rfl, ⟨rfl, rfl, h.update hpc d _⟩, hother _⟩

/-- A schedule of the embedded clients replays among the others, which stay
    where they are. -/
theorem replay_embed (h : Embeds ι small big) {t t' : State D} {s : State C}
    (ha : Agree ι t s) {ds : List D} {es : List (Event D)}
    (hr : replay small t ds = some (t', es)) :
    ∃ s', (shower big).Run s (es.map (Event.map ι)) s' ∧ Agree ι t' s' ∧
      ∀ c, (∀ d, c ≠ ι d) → s'.pc c = s.pc c := by
  induction ds generalizing t s es with
  | nil =>
    cases hr
    exact ⟨s, .nil s, ha, fun _ _ => rfl⟩
  | cons d ds ih =>
    obtain ⟨⟨t₁, e⟩, he, hr⟩ := Option.bind_eq_some_iff.mp hr
    obtain ⟨⟨_, log⟩, hn, heq⟩ := Option.map_eq_some_iff.mp he
    cases heq
    obtain ⟨⟨t₂, es₂⟩, hrest, heq⟩ := Option.map_eq_some_iff.mp hr
    cases heq
    obtain ⟨s₁, hs₁, ha₁, hframe₁⟩ := next_embed h ha hn
    obtain ⟨s₂, hrun, ha₂, hframe₂⟩ := ih ha₁ hrest
    refine ⟨s₂, .cons hs₁ hrun, ha₂, fun c hc => ?_⟩
    rw [hframe₂ c hc, hframe₁ c (hc d)]

end embedding

end Shower
