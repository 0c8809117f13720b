import Mathlib

/-! # Labelled transition systems

  Runs, reachability and the proof rules used by every concurrent program
  of this development:

  - `System.replay`, `System.follow`: compute a run from a schedule.
  - `System.invariant`: an inductive predicate holds in every reachable state.
  - `Run.record`: a record kept in the state lists the labels of a run.
  - `System.restrict`: the runs all of whose steps meet a guard, and
    `System.replayIf` to compute one.
  - `System.observe`: an observer beside the system.
  - `Run.cost_le`: a potential that pays for every step bounds the total cost
    of a run.
  - `System.exists_terminal`, `Run.length_le`, `Run.countP_le`: a measure that
    goes down with every step, or with some of them.
  - `Simulation.run`: a step-wise simulation maps runs to runs.
  - `Refinement.run`: so does a function that maps steps to runs.
-/

namespace Lts

/-- A labelled transition system: initial states and labelled steps. -/
structure System (State : Type*) (Label : Type*) where
  init : State → Prop
  step : State → Label → State → Prop

namespace System

variable {State Label : Type*} (sys : System State Label)

/-! ### Runs and reachability -/

/-- `Run s ls s'`: performing the labels `ls` in order leads from `s` to `s'`. -/
inductive Run : State → List Label → State → Prop where
  | nil (s) : Run s [] s
  | cons {s s' s'' l ls} : sys.step s l s' → Run s' ls s'' → Run s (l :: ls) s''

/-- States reachable from an initial state. -/
inductive Reachable : State → Prop where
  | init {s} : sys.init s → Reachable s
  | step {s l s'} : Reachable s → sys.step s l s' → Reachable s'

/-- Some step leaves `s` with label `l`. -/
def Enabled (s : State) (l : Label) : Prop := ∃ s', sys.step s l s'

variable {sys}

theorem Run.append {s s' s'' : State} {ls ls' : List Label}
    (h : sys.Run s ls s') (h' : sys.Run s' ls' s'') : sys.Run s (ls ++ ls') s'' := by
  induction h with
  | nil _ => exact h'
  | cons hstep _ ih => exact .cons hstep (ih h')

theorem Run.single {s s' : State} {l : Label} (h : sys.step s l s') : sys.Run s [l] s' :=
  .cons h (.nil s')

theorem Run.reachable {s s' : State} {ls : List Label}
    (h : sys.Run s ls s') (hs : sys.Reachable s) : sys.Reachable s' := by
  induction h with
  | nil _ => exact hs
  | cons hstep _ ih => exact ih (.step hs hstep)

/-! ### Replaying a schedule -/

/-- Perform actions in order with an executable step function and collect the
    labels; `none` if one of them is not possible. -/
def replay {Act : Type*} (next : State → Act → Option (State × Label)) :
    State → List Act → Option (State × List Label)
  | s, [] => some (s, [])
  | s, a :: as => (next s a).bind fun r => (replay next r.1 as).map fun r' => (r'.1, r.2 :: r'.2)

/-- A replayed schedule is a run. -/
theorem Run.of_replay {Act : Type*} {next : State → Act → Option (State × Label)}
    (hnext : ∀ s a s' l, next s a = some (s', l) → sys.step s l s')
    {s s' : State} {as : List Act} {ls : List Label} (h : replay next s as = some (s', ls)) :
    sys.Run s ls s' := by
  induction as generalizing s ls with
  | nil =>
    cases h
    exact .nil _
  | cons a as ih =>
    obtain ⟨⟨s₁, l⟩, hn, hrest⟩ := Option.bind_eq_some_iff.mp h
    obtain ⟨⟨s₂, ls₂⟩, hr, heq⟩ := Option.map_eq_some_iff.mp hrest
    cases heq
    exact .cons (hnext _ _ _ _ hn) (ih hr)

/-- Replay a list of labels with a step function that is told the label. -/
def follow (next : State → Label → Option State) (s : State) (ls : List Label) : Option State :=
  (replay (fun s l => (next s l).map (·, l)) s ls).map Prod.fst

/-- What has been followed are the labels of a run. -/
theorem Run.of_follow {next : State → Label → Option State}
    (hnext : ∀ s l s', next s l = some s' → sys.step s l s')
    {s s' : State} {ls : List Label} (h : follow next s ls = some s') : sys.Run s ls s' := by
  induction ls generalizing s with
  | nil =>
    cases h
    exact .nil _
  | cons l ls ih =>
    obtain ⟨⟨_, ls'⟩, hreplay, rfl⟩ := Option.map_eq_some_iff.mp h
    obtain ⟨r, hfirst, hrest⟩ := Option.bind_eq_some_iff.mp hreplay
    obtain ⟨s₁, hn, rfl⟩ := Option.map_eq_some_iff.mp hfirst
    obtain ⟨⟨s₂, ls₂⟩, hr, heq⟩ := Option.map_eq_some_iff.mp hrest
    cases heq
    refine .cons (hnext _ _ _ hn) (ih ?_)
    rw [follow, hr]
    rfl

/-! ### Invariants -/

/-- **Invariant rule**: what holds initially and is preserved by every step
    holds in every reachable state. -/
theorem invariant {I : State → Prop}
    (hinit : ∀ s, sys.init s → I s)
    (hstep : ∀ s l s', I s → sys.step s l s' → I s')
    {s : State} (h : sys.Reachable s) : I s := by
  induction h with
  | init hs => exact hinit _ hs
  | step _ hs ih => exact hstep _ _ _ ih hs

/-- Invariant rule relative to an invariant that is already known. -/
theorem invariant_of {J I : State → Prop}
    (hJ : ∀ s, sys.Reachable s → J s)
    (hinit : ∀ s, sys.init s → I s)
    (hstep : ∀ s l s', J s → I s → sys.step s l s' → I s')
    {s : State} (h : sys.Reachable s) : I s := by
  induction h with
  | init hs => exact hinit _ hs
  | step hr hs ih => exact hstep _ _ _ (hJ _ hr) ih hs

/-- **History rule**: a record kept in the state that grows with every step by
    the label, if `p` holds of it, lists the labels with `p` of a run. -/
theorem Run.record {I : State → Prop} {p : Label → Bool} (f : State → List Label)
    (hstep : ∀ s l s', I s → sys.step s l s' → I s' ∧ f s' = f s ++ [l].filter p)
    {s s' : State} {ls : List Label} (h : sys.Run s ls s') (hs : I s) :
    f s' = f s ++ ls.filter p := by
  induction h with
  | nil s => simp
  | @cons s s₁ s₂ l ls hl _ ih =>
    obtain ⟨hI, hf⟩ := hstep s l s₁ hs hl
    rw [ih hI, hf, List.append_assoc, ← List.filter_append, List.singleton_append]

/-! ### Guarded runs -/

/-- The system whose steps are the steps of `sys` that meet the guard `G`,
    a condition on the state before the step and its label. -/
def restrict (sys : System State Label) (G : State → Label → Prop) : System State Label where
  init := sys.init
  step s l s' := G s l ∧ sys.step s l s'

/-- Perform actions in order with an executable step function, as long as
    every step meets the test `g`. -/
def replayIf {Act : Type*} (next : State → Act → Option (State × Label))
    (g : State → Label → Bool) : State → List Act → Option State
  | s, [] => some s
  | s, a :: as => (next s a).bind fun r => if g s r.2 then replayIf next g r.1 as else none

theorem Reachable.of_replayIf {Act : Type*} {next : State → Act → Option (State × Label)}
    {g : State → Label → Bool} {G : State → Label → Prop}
    (hnext : ∀ s a s' l, next s a = some (s', l) → sys.step s l s')
    (hg : ∀ s l, g s l = true → G s l) {s s' : State} {as : List Act}
    (hs : (sys.restrict G).Reachable s) (h : replayIf next g s as = some s') :
    (sys.restrict G).Reachable s' := by
  induction as generalizing s with
  | nil =>
    cases h
    exact hs
  | cons a as ih =>
    obtain ⟨⟨s₁, l⟩, hn, hrest⟩ := Option.bind_eq_some_iff.mp h
    simp only at hrest
    split at hrest
    · next hgl => exact ih (.step hs ⟨hg _ _ hgl, hnext _ _ _ _ hn⟩) hrest
    · cases hrest

/-- A run of labels that meet the guard in every state. -/
theorem Run.restrict {G : State → Label → Prop} {s s' : State} {ls : List Label}
    (h : sys.Run s ls s') (hG : ∀ l ∈ ls, ∀ s, G s l) : (sys.restrict G).Run s ls s' := by
  induction h with
  | nil s => exact .nil s
  | cons hstep _ ih =>
    have hrest := ih fun l hl => hG l (List.mem_cons_of_mem _ hl)
    exact .cons ⟨hG _ List.mem_cons_self _, hstep⟩ hrest

theorem Run.of_restrict {G : State → Label → Prop} {s s' : State} {ls : List Label}
    (h : (sys.restrict G).Run s ls s') : sys.Run s ls s' := by
  induction h with
  | nil s => exact .nil s
  | cons hstep _ ih => exact .cons hstep.2 ih

theorem Reachable.of_restrict {G : State → Label → Prop} {s : State}
    (h : (sys.restrict G).Reachable s) : sys.Reachable s := by
  induction h with
  | init hs => exact .init hs
  | step _ hs ih => exact .step ih hs.2

/-! ### Observers -/

/-- The system beside an observer that updates its notes `H` with every step
    and never stands in the way. -/
def observe {H : Type*} (sys : System State Label) (start : H) (note : State → Label → H → H) :
    System (State × H) Label where
  init s := sys.init s.1 ∧ s.2 = start
  step s l s' := sys.step s.1 l s'.1 ∧ s'.2 = note s.1 l s.2

section observe
variable {H : Type*} {start : H} {note : State → Label → H → H}

theorem Reachable.of_observe {s : State × H} (h : (sys.observe start note).Reachable s) :
    sys.Reachable s.1 := by
  induction h with
  | init hs => exact .init hs.1
  | step _ hs ih => exact .step ih hs.1

/-- Every run is a run under observation. -/
theorem Run.observed {s s' : State} {ls : List Label} (h : sys.Run s ls s') (notes : H) :
    ∃ notes', (sys.observe start note).Run (s, notes) ls (s', notes') := by
  induction h generalizing notes with
  | nil s => exact ⟨notes, .nil _⟩
  | @cons s s₁ s₂ l ls hs _ ih =>
    obtain ⟨notes', hrun⟩ := ih (note s l notes)
    exact ⟨notes', .cons ⟨hs, rfl⟩ hrun⟩

end observe

/-! ### Potentials -/

/-- **Potential rule**: if every step within `P` that is not a `stop` keeps
    `P` and pays its cost out of the potential `Φ`, then a run without a
    `stop` spends at most what `Φ` loses. -/
theorem Run.cost_le (P : State → Prop) (Φ : State → ℤ)
    (stop : Label → Prop) (cost : Label → ℤ)
    (hstep : ∀ s l s', P s → sys.step s l s' → ¬ stop l → P s' ∧ Φ s' + cost l ≤ Φ s)
    {s s' : State} {ls : List Label}
    (hrun : sys.Run s ls s') (hP : P s) (hls : ∀ l ∈ ls, ¬ stop l) :
    P s' ∧ Φ s' + (ls.map cost).sum ≤ Φ s := by
  induction hrun with
  | nil s => exact ⟨hP, by simp⟩
  | @cons s s₁ s₂ l ls hs _ ih =>
    obtain ⟨hP₁, hpay⟩ := hstep s l s₁ hP hs (hls l (by simp))
    obtain ⟨hP₂, hrest⟩ := ih hP₁ (fun l' hl' => hls l' (by simp [hl']))
    refine ⟨hP₂, ?_⟩
    simp only [List.map_cons, List.sum_cons]
    omega

/-! ### Termination -/

/-- If a measure goes down with every step, some reachable state has no step. -/
theorem exists_terminal (μ : State → ℕ)
    (hμ : ∀ s l s', sys.Reachable s → sys.step s l s' → μ s' < μ s)
    {s : State} (hs : sys.Reachable s) :
    ∃ t, sys.Reachable t ∧ ∀ l t', ¬ sys.step t l t' := by
  induction hn : μ s using Nat.strong_induction_on generalizing s with
  | _ n ih =>
    by_cases hstep : ∃ l s', sys.step s l s'
    -- follow the step: the measure is smaller there
    · obtain ⟨l, s', hs'⟩ := hstep
      exact ih (μ s') (hn ▸ hμ s l s' hs hs') (hs.step hs') rfl
    · simp only [not_exists] at hstep
      exact ⟨s, hs, hstep⟩

/-- The measure bounds the length of every run. -/
theorem Run.length_le (μ : State → ℕ)
    (hμ : ∀ s l s', sys.Reachable s → sys.step s l s' → μ s' < μ s)
    {s s' : State} {ls : List Label} (h : sys.Run s ls s') (hs : sys.Reachable s) :
    ls.length + μ s' ≤ μ s := by
  induction h with
  | nil => simp
  | @cons s s₁ s₂ l ls hstep _ ih =>
    have hdown := hμ _ _ _ hs hstep
    have hrest := ih (hs.step hstep)
    simp only [List.length_cons]
    omega

/-- A measure that never goes up bounds how often it is lowered. -/
theorem Run.countP_le (μ : State → ℕ) (p : Label → Bool)
    (hμ : ∀ s l s', sys.Reachable s → sys.step s l s' → μ s' + (if p l then 1 else 0) ≤ μ s)
    {s s' : State} {ls : List Label} (h : sys.Run s ls s') (hs : sys.Reachable s) :
    ls.countP p + μ s' ≤ μ s := by
  induction h with
  | nil => simp
  | @cons s s₁ s₂ l ls hstep _ ih =>
    have hdown := hμ _ _ _ hs hstep
    have hrest := ih (hs.step hstep)
    simp only [List.countP_cons]
    omega

end System

/-! ### Simulation -/

/-- `R` simulates the concrete system by the abstract one: every concrete
    step is matched by an abstract run over the labels `obs` makes of it
    (none for an internal step). -/
structure Simulation {S A L M : Type*} (conc : System S L) (abst : System A M)
    (obs : L → List M) (R : S → A → Prop) : Prop where
  init : ∀ s, conc.init s → ∃ a, abst.init a ∧ R s a
  step : ∀ s l s' a, R s a → conc.step s l s' → ∃ a', abst.Run a (obs l) a' ∧ R s' a'

namespace Simulation

variable {S A L M : Type*} {conc : System S L} {abst : System A M}
  {obs : L → List M} {R : S → A → Prop}

/-- Every concrete run is matched by an abstract run over its observations. -/
theorem run (sim : Simulation conc abst obs R) {s s' : S} {ls : List L} {a : A}
    (h : conc.Run s ls s') (hR : R s a) :
    ∃ a', abst.Run a (ls.flatMap obs) a' ∧ R s' a' := by
  induction h generalizing a with
  | nil s => exact ⟨a, .nil a, hR⟩
  -- match the first step, then the rest of the run from there
  | cons hstep _ ih =>
    obtain ⟨a₁, hrun₁, hR₁⟩ := sim.step _ _ _ a hR hstep
    obtain ⟨a₂, hrun₂, hR₂⟩ := ih hR₁
    exact ⟨a₂, by simpa using hrun₁.append hrun₂, hR₂⟩

/-- Every reachable concrete state is related to a reachable abstract one. -/
theorem reachable (sim : Simulation conc abst obs R) {s : S} (h : conc.Reachable s) :
    ∃ a, abst.Reachable a ∧ R s a := by
  induction h with
  | init hs =>
    obtain ⟨a, ha, hR⟩ := sim.init _ hs
    exact ⟨a, .init ha, hR⟩
  | step _ hs ih =>
    obtain ⟨a, ha, hR⟩ := ih
    obtain ⟨a', hrun, hR'⟩ := sim.step _ _ _ a hR hs
    exact ⟨a', hrun.reachable ha, hR'⟩

end Simulation

/-- `f` maps the concrete system into the abstract one: what a concrete step
    does is an abstract run, of any length. -/
structure Refinement {S A L M : Type*} (conc : System S L) (abst : System A M) (f : S → A) :
    Prop where
  init : ∀ s, conc.init s → abst.init (f s)
  step : ∀ s l s', conc.Reachable s → conc.step s l s' → ∃ ms, abst.Run (f s) ms (f s')

/-- Every concrete run is an abstract one. -/
theorem Refinement.run {S A L M : Type*} {conc : System S L} {abst : System A M} {f : S → A}
    (ref : Refinement conc abst f) {s s' : S} {ls : List L} (h : conc.Run s ls s')
    (hs : conc.Reachable s) : ∃ ms, abst.Run (f s) ms (f s') := by
  induction h with
  | nil s => exact ⟨[], .nil _⟩
  | cons hstep _ ih =>
    obtain ⟨ms, hfirst⟩ := ref.step _ _ _ hs hstep
    obtain ⟨ms', hrest⟩ := ih (hs.step hstep)
    exact ⟨ms ++ ms', hfirst.append hrest⟩

end Lts
