import OsLessons.Shower.Termination

/-! # The selftest

  `cmd_selftest` spawns men and women in turns, and `spawn_many` waits for all
  of its children. So the clients that are there at the same time are all of one
  sex: nobody ever waits, nobody is ever woken, and no switch is ever tested
  (`selftest_never_waits`).
-/

namespace Shower

open Lts Census

/-! ### Clients that come in turns -/

def Pc.ended : Pc → Bool
  | .finished | .died => true
  | _ => false

/-- On the way of a client that never waits. -/
def Pc.easy : Pc → Bool
  | .notStarted | .loop | .allowed | .capWait | .recheck | .entered | .inside | .leaving | .left
  | .finished => true
  | _ => false

/-- How many steps such a client has still to make. -/
def Pc.stepsLeft : Pc → ℤ
  | .notStarted => 9
  | .loop => 8
  | .allowed => 7
  | .capWait => 6
  | .recheck => 5
  | .entered => 4
  | .inside => 3
  | .leaving => 2
  | .left => 1
  | _ => 0

/-- It keeps the shower for its sex. -/
def Pc.hosts : Pc → Bool
  | .entered | .inside | .leaving => true
  | _ => false

/-- What a client of sex `who` prints that is let in and leaves. -/
def plain (who : Gender) (l : Log) : Prop := l = .enter who ∨ l = .leave who

/-- What such a client does. -/
structure EasyMove (who : Gender) (S S' : Shared) (pc pc' : Pc) (k : Sem) (log : List Log) :
    Prop where
  easy : pc'.easy = true
  stepsLeft : pc'.stepsLeft + 1 = pc.stepsLeft
  wait : ∀ g, S'.wait g = S.wait g
  sem : k = .MUTEX ∨ k = .CAP
  turn : S'.turn = S.turn
  idle : S'.current_gender = none →
    (∀ g, S'.streak g = 0) ∨ S.current_gender = none ∧ ∀ g, S'.streak g = S.streak g
  plain : ∀ l ∈ log, plain who l

/-- Somebody who is allowed in does not wait, and wakes nobody where nobody
    waits. -/
theorem Move.easy {ms δ : ℤ} {who : Gender} {S S' : Shared} {pc pc' : Pc} {k : Sem}
    {log : List Log} (h : Move ms who S pc (k, δ) S' pc' log) (heasy : pc.easy = true)
    (hwait : ∀ g, S.wait g = 0) (hallow : pc = .loop ∨ pc = .recheck → allow ms who S = true) :
    EasyMove who S S' pc pc' k log := by
  cases h with
  | refuse hno =>
    rw [hallow (.inl rfl)] at hno
    cases hno
  | deny hno =>
    rw [hallow (.inr rfl)] at hno
    cases hno
  | wake g reason _ hd =>
    have hpos := decide_wake_wait hd
    rw [hwait g] at hpos
    exact absurd hpos (lt_irrefl _)
  | unlockDenied | giveBack | register | unlockRegistered | dequeue | post => cases heasy
  | enter =>
    exact {
      easy := rfl, stepsLeft := rfl, sem := .inl rfl
      wait := fun g => enter_wait _ _ _
      turn := enter_turn _ _
      idle := by simp
      plain := by simp [Shower.plain] }
  | leave =>
    exact {
      easy := rfl, stepsLeft := rfl, sem := .inl rfl
      wait := fun g => leave_wait _ _ _
      turn := leave_turn _ _
      idle := fun hcur => .inr ⟨by simpa using hcur, fun g => leave_streak _ _ _⟩
      plain := nofun }
  | idle =>
    exact {
      easy := rfl, stepsLeft := rfl, sem := .inr rfl, turn := rfl
      wait := fun g => go_idle_wait _ _
      idle := fun _ => .inl fun g => go_idle_streak _ _
      plain := by simp [Shower.plain] }
  | stay =>
    exact {
      easy := rfl, stepsLeft := rfl, sem := .inr rfl, turn := rfl, wait := fun _ => rfl
      idle := fun hcur => .inr ⟨hcur, fun _ => rfl⟩
      plain := by simp [Shower.plain] }
  | pass | unlockAllowed | unlockEntered | unlockLeft =>
    exact {
      easy := rfl, stepsLeft := rfl, sem := .inl rfl, turn := rfl, wait := fun _ => rfl
      idle := fun hcur => .inr ⟨hcur, fun _ => rfl⟩
      plain := nofun }
  | takeSlot =>
    exact {
      easy := rfl, stepsLeft := rfl, sem := .inr rfl, turn := rfl, wait := fun _ => rfl
      idle := fun hcur => .inr ⟨hcur, fun _ => rfl⟩
      plain := nofun }

theorem Move.started {ms δ : ℤ} {who : Gender} {S S' : Shared} {pc pc' : Pc} {k : Sem}
    {log : List Log} (h : Move ms who S pc (k, δ) S' pc' log) :
    pc ≠ .notStarted ∧ pc ≠ .finished := by
  cases h <;> exact ⟨nofun, nofun⟩

variable {C : Type*}

/-- A client is forked when all those of earlier phases have ended. -/
def InTurn (phase : C → ℕ) (s : State C) (e : Event C) : Prop :=
  s.pc e.client = .notStarted → ∀ d, phase d < phase e.client → (s.pc d).ended = true

/-- Everybody who is there is of one sex and has not been kept waiting. -/
structure Calm (cfg : Config C) (phase : C → ℕ) (s : State C) : Prop where
  easy : ∀ c, (s.pc c).easy = true
  turns : ∀ c d, s.pc c ≠ .notStarted → phase d < phase c → s.pc d = .finished
  wait : ∀ g, s.S.wait g = 0
  queue : ∀ g : Gender, s.sem g.queue = 0
  turn : s.S.turn = .MEN
  idle : s.S.current_gender = none → ∀ g, s.S.streak g = 0
  host : ∀ g, s.S.current_gender = some g → ∃ c, (s.pc c).hosts = true ∧ cfg.who c = g

variable {cfg : Config C} {phase : C → ℕ} {s s' : State C}

theorem calm_init (h : cmd_init cfg.N = some s) : Calm cfg phase s := by
  obtain ⟨_, _, rfl⟩ := cmd_init_eq_some.mp h
  exact {
    easy := fun _ => rfl
    turns := fun c d hc => absurd rfl hc
    wait := initState_wait _
    queue := initState_queue _
    turn := rfl
    idle := fun _ => initState_streak _
    host := nofun }

theorem Calm.finished_of_ended (h : Calm cfg phase s) {c : C} (hc : (s.pc c).ended = true) :
    s.pc c = .finished := by
  have heasy := h.easy c
  cases hpc : s.pc c with
  | finished => rfl
  | died =>
    rw [hpc] at heasy
    cases heasy
  | _ =>
    rw [hpc] at hc
    cases hc

theorem Calm.same_phase (h : Calm cfg phase s) {c d : C} (hc : s.pc c ≠ .notStarted)
    (hc' : s.pc c ≠ .finished) (hd : s.pc d ≠ .notStarted) (hd' : s.pc d ≠ .finished) :
    phase c = phase d := by
  rcases lt_trichotomy (phase c) (phase d) with hlt | heq | hgt
  · exact absurd (h.turns d c hd hlt) hc'
  · exact heq
  · exact absurd (h.turns c d hc hgt) hd'

variable [Fintype C]

theorem Calm.allow (h : Calm cfg phase s) (hinv : Inv cfg s)
    (hsex : ∀ c d, phase c = phase d → cfg.who c = cfg.who d) {c : C}
    (hc : s.pc c = .loop ∨ s.pc c = .recheck) (ms : ℤ) : allow ms (cfg.who c) s.S = true := by
  -- whoever keeps the shower has come in the same turn
  have hhost : ∀ g, s.S.current_gender = some g → cfg.who c = g := by
    intro g hg
    obtain ⟨d, hd, rfl⟩ := h.host g hg
    refine hsex c d (h.same_phase ?_ ?_ ?_ ?_)
    · rcases hc with hc | hc <;> rw [hc] <;> decide
    · rcases hc with hc | hc <;> rw [hc] <;> decide
    · intro hpc
      rw [hpc] at hd
      cases hd
    · intro hpc
      rw [hpc] at hd
      cases hd
  refine allow_iff.mpr ⟨?_, ?_, ?_⟩
  · cases hcur : s.S.current_gender with
    | none => exact .inl rfl
    | some g => exact .inr (by rw [hhost g hcur])
  · by_contra hpos
    have hcur := hinv.coherent (cfg.who c).other (not_le.mp hpos)
    exact Gender.ne_other _ (hhost _ hcur)
  · rintro ⟨_, hpos, _⟩
    rw [h.wait] at hpos
    exact lt_irrefl _ hpos

theorem Calm.not_erange (h : Calm cfg phase s) (hinv : Inv cfg s) {c : C} {k : Sem} {δ : ℤ}
    (hop : (s.pc c).op (cfg.who c) = some (k, δ)) : semop (s.sem k) δ ≠ .erange := by
  intro he
  obtain ⟨hpos, hlimit⟩ := semop_erange he
  have heasy := h.easy c
  cases hpc : s.pc c with
  | allowed | entered | left =>
    rw [hpc] at hop
    cases hop
    exact hinv.not_erange_mutex (c := c) (by rw [hpc]; rfl) he
  | leaving =>
    rw [hpc] at hop
    cases hop
    have hlt := hinv.cap_lt (c := c) (by rw [hpc]; rfl)
    have hN := hinv.limit
    omega
  | loop | capWait | recheck | inside =>
    rw [hpc] at hop
    cases hop
    exact absurd hpos (by decide)
  | notStarted | finished =>
    rw [hpc] at hop
    cases hop
  | denied | giveBack | register | registered | queue | waking | died =>
    rw [hpc] at heasy
    cases heasy

section steps
variable [DecidableEq C]

omit [Fintype C] in
/-- Where earlier clients have finished they stay so. -/
theorem turns_update {c : C} {pc' : Pc}
    (h : ∀ c d, s.pc c ≠ .notStarted → phase d < phase c → s.pc d = .finished)
    (hc : ∀ d, phase d < phase c → s.pc d = .finished) (hpc : s.pc c ≠ .finished) (c' d : C)
    (hc' : Function.update s.pc c pc' c' ≠ .notStarted) (hlt : phase d < phase c') :
    Function.update s.pc c pc' d = .finished := by
  have hd : s.pc d = .finished := by
    by_cases heq : c' = c
    · rw [heq] at hlt
      exact hc d hlt
    · rw [Function.update_of_ne heq] at hc'
      exact h c' d hc' hlt
  rw [Function.update_of_ne]
  · exact hd
  · intro heq
    rw [heq] at hd
    exact hpc hd

/-- A client that keeps the shower goes on keeping it, or hands it back empty. -/
theorem Calm.host_moved (h : Calm cfg phase s) (hinv : Inv cfg s) {c : C} {ms δ : ℤ} {k : Sem}
    {v : ℕ} {S' : Shared} {pc' : Pc} {log : List Log}
    (hm : Move ms (cfg.who c) s.S (s.pc c) (k, δ) S' pc' log) (hpc' : pc'.easy = true) {g : Gender}
    (hcur : S'.current_gender = some g) :
    ∃ d, ((s.moved c k v S' pc').pc d).hosts = true ∧ cfg.who d = g := by
  -- somebody else stays where they are
  have hother : ∀ d, (s.pc d).hosts = true → d ≠ c →
      ((s.moved c k v S' pc').pc d).hosts = true := by
    intro d hd hne
    show (Function.update s.pc c pc' d).hosts = true
    rwa [Function.update_of_ne hne]
  have hself : pc'.hosts = true → ((s.moved c k v S' pc').pc c).hosts = true := by
    intro hhosts
    show (Function.update s.pc c pc' c).hosts = true
    rwa [Function.update_self]
  -- the mover keeps the shower if it kept it before
  have hkeep : s.S.current_gender = some g → ((s.pc c).hosts = true → pc'.hosts = true) →
      ∃ d, ((s.moved c k v S' pc').pc d).hosts = true ∧ cfg.who d = g := by
    intro hg hstays
    obtain ⟨d, hd, hwho⟩ := h.host g hg
    by_cases hdc : d = c
    · subst hdc
      exact ⟨d, hself (hstays hd), hwho⟩
    · exact ⟨d, hother d hd hdc, hwho⟩
  generalize hpc : s.pc c = pc at hm hkeep
  cases hm with
  | enter =>
    rw [enter_current_gender] at hcur
    cases hcur
    exact ⟨c, hself rfl, rfl⟩
  | leave =>
    rw [leave_current_gender] at hcur
    exact hkeep hcur fun _ => rfl
  | idle => cases hcur
  | stay hne =>
    -- the one who leaves is not alone
    have hin : ∃ g', 0 < s.S.in_ g' := by
      by_contra hnone
      have hempty := s.S.empty_iff.mpr fun g' => by
        have hle := not_lt.mp (fun hpos => hnone ⟨g', hpos⟩)
        exact le_antisymm hle (hinv.in_nonneg g')
      rw [hempty] at hne
      cases hne
    obtain ⟨g', hpos⟩ := hin
    have hg' := hinv.coherent g' hpos
    rw [hcur] at hg'
    cases hg'
    rw [hinv.inside g] at hpos
    obtain ⟨d, hd⟩ := exists_of_census_pos hpos
    unfold insideWeight at hd
    split at hd
    · next hin =>
      refine ⟨d, hother d ?_ ?_, hin.1⟩
      · have hinside := hin.2
        cases hd' : s.pc d with
        | entered | inside => rfl
        | _ =>
          rw [hd'] at hinside
          cases hinside
      · intro heq
        rw [heq, hpc] at hin
        cases hin.2
    · cases hd
  | wake | unlockDenied | giveBack | unlockRegistered | deny | refuse | register => cases hpc'
  | unlockEntered => exact hkeep hcur fun _ => rfl
  | _ => exact hkeep hcur nofun

theorem calm_step (hsex : ∀ c d, phase c = phase d → cfg.who c = cfg.who d) {e : Event C}
    (hinv : Inv cfg s) (h : Calm cfg phase s) (hturn : InTurn phase s e)
    (hstep : (shower cfg).step s e s') :
    Calm cfg phase s' ∧ (∀ l ∈ e.log, plain (cfg.who e.client) l) ∧
      census (fun _ p => p.stepsLeft) s'.pc + 1 = census (fun _ p => p.stepsLeft) s.pc := by
  obtain ⟨c, log⟩ := e
  have hs : Step cfg s c s' log := step_of_next hstep
  cases hs with
  | die k δ hop he => exact absurd he (h.not_erange hinv hop)
  | fork hpc =>
    refine ⟨?_, nofun, ?_⟩
    · exact {
        easy := fun d => by
          show (Function.update s.pc c .loop d).easy = true
          by_cases hd : d = c
          · rw [hd, Function.update_self]
            rfl
          · rw [Function.update_of_ne hd]
            exact h.easy d
        turns := turns_update h.turns (fun d hd => h.finished_of_ended (hturn hpc d hd)) (by
          rw [hpc]
          exact nofun)
        wait := h.wait
        queue := h.queue
        turn := h.turn
        idle := h.idle
        host := fun g hg => by
          obtain ⟨d, hd, hwho⟩ := h.host g hg
          refine ⟨d, ?_, hwho⟩
          show (Function.update s.pc c .loop d).hosts = true
          rw [Function.update_of_ne]
          · exact hd
          · intro heq
            rw [heq, hpc] at hd
            cases hd }
    · rw [census_update, hpc]
      simp only [Pc.stepsLeft]
      omega
  | @move k δ v S' pc' _ hv hm =>
    have hmove := hm.easy (h.easy c) h.wait fun hc => h.allow hinv hsex hc _
    refine ⟨?_, hmove.plain, ?_⟩
    · exact {
        easy := fun d => by
          show (Function.update s.pc c pc' d).easy = true
          by_cases hd : d = c
          · rw [hd, Function.update_self]
            exact hmove.easy
          · rw [Function.update_of_ne hd]
            exact h.easy d
        turns := turns_update h.turns (fun d hd => h.turns c d hm.started.1 hd) hm.started.2
        wait := fun g => (hmove.wait g).trans (h.wait g)
        queue := fun g => by
          show Function.update s.sem k v g.queue = 0
          rw [Function.update_of_ne]
          · exact h.queue g
          · rcases hmove.sem with rfl | rfl
            · exact Gender.queue_ne_MUTEX g
            · exact Gender.queue_ne_CAP g
        turn := hmove.turn.trans h.turn
        idle := fun hcur g => by
          rcases hmove.idle hcur with hzero | ⟨hnone, hsame⟩
          · exact hzero g
          · exact (hsame g).trans (h.idle hnone g)
        host := fun g hg => h.host_moved hinv hm hmove.easy hg }
    · rw [State.moved, census_update, ← hmove.stepsLeft]
      omega

/-! ### Nobody can go on -/

/-- Whoever has been forked has finished. -/
theorem Calm.finished_of_started (h : Calm cfg phase s) (hinv : Inv cfg s) (hN : 1 ≤ cfg.N)
    (hstuck : ∀ c, s.pc c ≠ .notStarted → ¬ CanStep cfg s c) (c : C)
    (hc : s.pc c ≠ .notStarted) : s.pc c = .finished := by
  have hblocks : ∀ d k δ, s.pc d ≠ .notStarted → (s.pc d).op (cfg.who d) = some (k, δ) →
      semop (s.sem k) δ = .blocks := by
    intro d k δ hd hop
    exact blocks_of_not_canStep hd hop (hstuck d hd)
  have hup : ∀ d k, (s.pc d).op (cfg.who d) ≠ some (k, 1) := by
    intro d k hop
    refine semop_up_not_blocks Int.one_pos (hblocks d k 1 (fun hd => ?_) hop)
    rw [hd] at hop
    cases hop
  -- nobody is between `P(SEM_MUTEX)` and `V(SEM_MUTEX)`
  have hout : ∀ d, (s.pc d).semadj .MUTEX = 0 := by
    intro d
    have heasy := h.easy d
    cases hpc : s.pc d with
    | allowed | entered | left =>
      exact absurd (by rw [hpc]; rfl) (hup d .MUTEX)
    | leaving => exact absurd (by rw [hpc]; rfl) (hup d .CAP)
    | denied | registered | waking =>
      rw [hpc] at heasy
      cases heasy
    | _ => rfl
  have hmutex : s.sem .MUTEX = 1 := by
    have hsum := hinv.mutex
    rw [census_zero fun d => by rw [hout d]; rfl] at hsum
    omega
  have hlock : ∀ d, s.pc d ≠ .notStarted → (s.pc d).op (cfg.who d) ≠ some (.MUTEX, -1) := by
    intro d hd hop
    have hzero := semop_down_blocks.mp (hblocks d .MUTEX (-1) hd hop)
    omega
  -- so nobody holds a slot
  have hslot : ∀ d, (s.pc d).semadj .CAP = 0 := by
    intro d
    have hd := hout d
    have heasy := h.easy d
    cases hpc : s.pc d with
    | recheck | inside =>
      exact absurd (by rw [hpc]; rfl) (hlock d (by rw [hpc]; exact nofun))
    | denied | entered | leaving =>
      rw [hpc] at hd
      cases hd
    | giveBack =>
      rw [hpc] at heasy
      cases heasy
    | _ => rfl
  have hcap : s.sem .CAP ≠ 0 := by
    have hsum := hinv.cap
    rw [census_zero fun d => by rw [hslot d]; rfl] at hsum
    omega
  have heasy := h.easy c
  cases hpc : s.pc c with
  | finished => rfl
  | notStarted => exact absurd hpc hc
  | loop | recheck | inside =>
    exact absurd (by rw [hpc]; rfl) (hlock c hc)
  | capWait =>
    have hop : (s.pc c).op (cfg.who c) = some (.CAP, -1) := by
      rw [hpc]
      rfl
    exact absurd (semop_down_blocks.mp (hblocks c .CAP (-1) hc hop)) hcap
  | allowed | entered | left => exact absurd (by rw [hpc]; rfl) (hup c .MUTEX)
  | leaving => exact absurd (by rw [hpc]; rfl) (hup c .CAP)
  | denied | giveBack | register | registered | queue | waking | died =>
    rw [hpc] at heasy
    cases heasy

/-- Where nobody can move and nobody can be forked, everybody has finished. -/
theorem Calm.finished_of_quiet (h : Calm cfg phase s) (hinv : Inv cfg s) (hN : 1 ≤ cfg.N)
    (hquiet : ∀ e, ¬ ((shower cfg).restrict (InTurn phase)).Enabled s e) (c : C) :
    s.pc c = .finished := by
  have hstuck : ∀ c, s.pc c ≠ .notStarted → ¬ CanStep cfg s c := by
    intro c hc hcan
    obtain ⟨⟨s', log⟩, hnext⟩ := Option.isSome_iff_exists.mp hcan
    exact hquiet ⟨c, log⟩ ⟨s', fun hfork => absurd hfork hc, hnext⟩
  -- the phases are over one after the other
  induction hn : phase c using Nat.strong_induction_on generalizing c with
  | _ n ih =>
    by_cases hc : s.pc c = .notStarted
    · exfalso
      refine hquiet ⟨c, []⟩ ⟨_, fun _ d hd => ?_, if_pos hc⟩
      rw [ih (phase d) (hn ▸ hd) d rfl]
      rfl
    · exact h.finished_of_started hinv hN hstuck c hc

omit [DecidableEq C] in
/-- Where everybody has finished, the shower is as `cmd_init` has left it. -/
theorem Calm.as_init (h : Calm cfg phase s) (hinv : Inv cfg s) (hfin : ∀ c, s.pc c = .finished)
    {s₀ : State C} (h₀ : cmd_init cfg.N = some s₀) : s.S = s₀.S ∧ s.sem = s₀.sem := by
  have hzero : ∀ w : C → Pc → ℤ, (∀ c, w c .finished = 0) → census w s.pc = 0 := by
    intro w hw
    exact census_zero fun c => by rw [hfin c, hw c]
  have hin : ∀ g, s.S.in_ g = 0 := by
    intro g
    rw [hinv.inside g]
    exact hzero _ fun c => by simp [insideWeight, Pc.isInside]
  have hcur : s.S.current_gender = none := by
    cases hcur : s.S.current_gender with
    | none => rfl
    | some g =>
      obtain ⟨d, hd, _⟩ := h.host g hcur
      rw [hfin d] at hd
      cases hd
  have hstreak := h.idle hcur
  have hmutex := hinv.mutex
  rw [hzero _ fun _ => rfl] at hmutex
  have hcap := hinv.cap
  rw [hzero _ fun _ => rfl] at hcap
  obtain ⟨_, _, rfl⟩ := cmd_init_eq_some.mp h₀
  refine ⟨?_, ?_⟩
  · exact Shared.ext (hin .MEN) (hin .WOMEN) (h.wait .MEN) (h.wait .WOMEN) hcur (hstreak .MEN)
      (hstreak .WOMEN) h.turn hinv.size
  · funext k
    cases k with
    | MUTEX =>
      show s.sem .MUTEX = 1
      omega
    | CAP =>
      show s.sem .CAP = cfg.N.toNat
      omega
    | MQ => exact h.queue .MEN
    | WQ => exact h.queue .WOMEN

/-! ### Runs -/

section runs
variable (hsex : ∀ c d, phase c = phase d → cfg.who c = cfg.who d)
include hsex

theorem calm (h : ((shower cfg).restrict (InTurn phase)).Reachable s) : Calm cfg phase s := by
  refine System.invariant_of (J := Inv cfg) (fun s hs => inv_reachable hs.of_restrict)
    (fun s => calm_init) ?_ h
  intro s e s' hinv hcalm ⟨hturn, hstep⟩
  exact (calm_step hsex hinv hcalm hturn hstep).1

theorem calm_run {es : List (Event C)} (hrun : ((shower cfg).restrict (InTurn phase)).Run s es s')
    (h : ((shower cfg).restrict (InTurn phase)).Reachable s) :
    (∀ e ∈ es, ∀ l ∈ e.log, plain (cfg.who e.client) l) ∧
      es.length + census (fun _ p => p.stepsLeft) s'.pc = census (fun _ p => p.stepsLeft) s.pc := by
  induction hrun with
  | nil s => exact ⟨nofun, by simp⟩
  | @cons s s₁ s₂ e es hstep _ ih =>
    obtain ⟨hplain, hlen⟩ := ih (h.step hstep)
    obtain ⟨_, hlog, hless⟩ :=
      calm_step hsex (inv_reachable h.of_restrict) (calm hsex h) hstep.1 hstep.2
    refine ⟨?_, ?_⟩
    · intro e' he'
      rcases List.mem_cons.mp he' with rfl | he'
      · exact hlog
      · exact hplain e' he'
    · rw [List.length_cons]
      omega

end runs

end steps

/-! ### The command -/

/-- The `M` men and the `W` women of each of `R` rounds. -/
abbrev SelftestClient (M W R : ℕ) := Fin R × (Fin M ⊕ Fin W)

/-- `spawn_many` is called twice in a round. -/
def spawning {M W R : ℕ} : SelftestClient M W R → ℕ
  | (r, .inl _) => 2 * r
  | (r, .inr _) => 2 * r + 1

/-- All clients find the same environment. -/
def selftest (N : ℤ) (M W R : ℕ) (env : Option ℤ) : Config (SelftestClient M W R) where
  N := N
  who c := match c.2 with
    | .inl _ => .MEN
    | .inr _ => .WOMEN
  env _ := env

def cmd_selftest (N : ℤ) (M W R : ℕ) (env : Option ℤ) :
    System (State (SelftestClient M W R)) (Event (SelftestClient M W R)) :=
  (shower (selftest N M W R env)).restrict (InTurn spawning)

theorem selftest_sex {N : ℤ} {M W R : ℕ} {env : Option ℤ} (c d : SelftestClient M W R)
    (h : spawning c = spawning d) :
    (selftest N M W R env).who c = (selftest N M W R env).who d := by
  obtain ⟨r, c⟩ := c
  obtain ⟨r', d⟩ := d
  cases c with
  | inl i =>
    cases d with
    | inl j => rfl
    | inr j =>
      simp only [spawning] at h
      omega
  | inr i =>
    cases d with
    | inl j =>
      simp only [spawning] at h
      omega
    | inr j => rfl

/-- **The selftest**: nobody waits and nobody is woken in it. It ends after nine
    steps of every client, when all of them have entered once, and leaves the
    shower as it was. -/
theorem selftest_never_waits (N : ℤ) (M W R : ℕ) (env : Option ℤ) (hN : 1 ≤ N)
    {s₀ s : State (SelftestClient M W R)} (h₀ : cmd_init N = some s₀)
    {es : List (Event (SelftestClient M W R))} (h : (cmd_selftest N M W R env).Run s₀ es s) :
    (∀ e ∈ es, ∀ l ∈ e.log, plain ((selftest N M W R env).who e.client) l) ∧
    es.length ≤ 9 * (R * (M + W)) ∧
    ((∀ e, ¬ (cmd_selftest N M W R env).Enabled s e) →
      es.length = 9 * (R * (M + W)) ∧
      (∀ c, s.pc c = .finished ∧ entriesBy (selftest N M W R env) c es = 1) ∧
      s.S = s₀.S ∧ s.sem = s₀.sem) := by
  have hinit : (cmd_selftest N M W R env).Reachable s₀ := .init h₀
  have hreach := h.reachable hinit
  have hinv : Inv (selftest N M W R env) s := inv_reachable hreach.of_restrict
  have hcalm := calm selftest_sex hreach
  obtain ⟨hplain, hlen⟩ := calm_run selftest_sex h hinit
  have hstart : census (fun (_ : SelftestClient M W R) p => p.stepsLeft) s₀.pc =
      (9 * (R * (M + W)) : ℕ) := by
    obtain ⟨_, _, rfl⟩ := cmd_init_eq_some.mp h₀
    simp [census, initState, Pc.stepsLeft]
    ring
  rw [hstart] at hlen
  refine ⟨hplain, ?_, fun hquiet => ?_⟩
  · have hnonneg := census_nonneg (w := fun (_ : SelftestClient M W R) p => p.stepsLeft) (f := s.pc)
      fun c => by cases s.pc c <;> simp [Pc.stepsLeft]
    omega
  · have hfin := hcalm.finished_of_quiet hinv hN hquiet
    refine ⟨?_, fun c => ⟨hfin c, ?_⟩, hcalm.as_init hinv hfin h₀⟩
    · rw [census_zero fun c => by rw [hfin c]; rfl] at hlen
      omega
    · have hentries := entriesBy_run h (fun s hs c hdied => ?_) hinit c
      · obtain ⟨_, _, rfl⟩ := cmd_init_eq_some.mp h₀
        rw [hfin c] at hentries
        exact hentries
      · have heasy := (calm selftest_sex hs).easy c
        rw [hdied] at heasy
        cases heasy

instance {M W R : ℕ} (s : State (SelftestClient M W R)) (e : Event (SelftestClient M W R)) :
    Decidable (InTurn spawning s e) :=
  inferInstanceAs (Decidable (_ → ∀ _, _ → _))

/-- One round with a man and a woman. -/
theorem selftest_never_waits_round : ∃ s₀ es s, cmd_init 1 = some s₀ ∧
    (cmd_selftest 1 1 1 1 none).Run s₀ es s ∧ es.length = 18 ∧ s.S = s₀.S ∧ s.sem = s₀.sem := by
  have hrun : (System.replay (fun s c => (nextEvent (selftest 1 1 1 1 none) s c).filter
      fun r => InTurn spawning s r.2) (initState 1)
      (List.replicate 9 (0, .inl 0) ++ List.replicate 9 (0, .inr 0))).any (fun r =>
        decide (∀ c, r.1.pc c = .finished)) = true := by
    decide +kernel
  obtain ⟨⟨s, es⟩, hreplay, hfin⟩ := (Option.any_eq_true _ _).mp hrun
  have h : (cmd_selftest 1 1 1 1 none).Run (initState 1) es s := by
    refine System.Run.of_replay (fun s c s' e hnext => ?_) hreplay
    obtain ⟨hnext, hturn⟩ := Option.filter_eq_some_iff.mp hnext
    exact ⟨of_decide_eq_true hturn, step_of_nextEvent hnext⟩
  have hquiet : ∀ e, ¬ (cmd_selftest 1 1 1 1 none).Enabled s e := by
    intro e ⟨s', _, hstep⟩
    change next (selftest 1 1 1 1 none) s e.client = some (s', e.log) at hstep
    rw [next, of_decide_eq_true hfin e.client] at hstep
    cases hstep
  have hinit : cmd_init 1 = some (initState 1 : State (SelftestClient 1 1 1)) := rfl
  obtain ⟨_, _, hends⟩ := selftest_never_waits 1 1 1 1 none (by decide) hinit h
  obtain ⟨hlen, _, hS, hsem⟩ := hends hquiet
  exact ⟨_, es, s, hinit, h, hlen, hS, hsem⟩

end Shower
