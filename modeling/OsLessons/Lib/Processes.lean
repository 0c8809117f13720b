import OsLessons.Lib.Transition

/-! # Processes that fork, print and wait

  A program runs in processes that are numbered in the order of their creation.
  Each has a local state and its own copy of the buffer of standard output; a
  child starts with a copy of the buffer of its parent. What is written goes to
  one file that all of them share, one `write` after another. `exit` writes
  what is left in the buffer; a process that has exited stays until its parent
  has waited for it.

  - `Moves`: what a step can do.
  - `not_running_of_quiet`: such programs never deadlock.
  - `run_length_le`: a weight that every operation uses up bounds the length of
    every run.
-/

namespace Processes

open Lts

/-! ### Programs -/

/-- The next operation of a process and the local states behind it. A text that
    is printed may depend on the process and on its parent, if that still
    runs. -/
inductive Op (σ Text : Type) where
  | print (text : ℕ → Option ℕ → Text) (next : σ)
  | fflush (next : σ)
  | fork (child parent failed : σ)
  | wait (next : σ)
  | exit (code : ℕ)

structure Program (σ Text : Type) where
  start : σ
  op : σ → Op σ Text

/-! ### Configurations -/

inductive Status (σ : Type) where
  | running (s : σ)
  /-- not yet waited for -/
  | exited (code : ℕ)
  | reaped (code : ℕ)
  deriving DecidableEq

structure Process (σ Text : Type) where
  parent : Option ℕ
  /-- what it has printed and not yet written -/
  buf : List Text
  status : Status σ
  deriving DecidableEq

structure Config (σ Text : Type) where
  procs : List (Process σ Text)
  /-- what has been written -/
  out : List Text
  deriving DecidableEq

inductive Label where
  | act (p : ℕ)
  /-- `fork` fails -/
  | noFork (p : ℕ)
  /-- `p` waits for its child `q` -/
  | reap (p q : ℕ)
  deriving DecidableEq

variable {σ Text : Type}

/-- A child of `p` that has not been waited for. -/
def Process.awaits (p : ℕ) (pr : Process σ Text) : Bool :=
  match pr.status with
  | .reaped _ => false
  | _ => pr.parent == some p

/-- The parent `p` is gone. -/
def orphan (p : ℕ) (pr : Process σ Text) : Process σ Text :=
  if pr.parent = some p then { pr with parent := none } else pr

/-- The buffer after a text has been printed, and what is written. -/
def put (atOnce : Text → Bool) (buf : List Text) (t : Text) : List Text × List Text :=
  if atOnce t then ([], buf ++ [t]) else (buf ++ [t], [])

section step
variable (prog : Program σ Text) (atOnce : Text → Bool)

def initial : Config σ Text := ⟨[⟨none, [], .running prog.start⟩], []⟩

/-- The operation `op` of process `p`; `wait` only if there is nothing to wait
    for. -/
def perform (c : Config σ Text) (p : ℕ) (parent : Option ℕ) (buf : List Text) :
    Op σ Text → Option (Config σ Text)
  | .print text s =>
      let r := put atOnce buf (text p parent)
      some ⟨c.procs.set p ⟨parent, r.1, .running s⟩, c.out ++ r.2⟩
  | .fflush s => some ⟨c.procs.set p ⟨parent, [], .running s⟩, c.out ++ buf⟩
  | .fork child s _ =>
      some ⟨c.procs.set p ⟨parent, buf, .running s⟩ ++ [⟨some p, buf, .running child⟩], c.out⟩
  | .wait s =>
      if c.procs.any (Process.awaits p) then none
      else some ⟨c.procs.set p ⟨parent, buf, .running s⟩, c.out⟩
  | .exit code =>
      some ⟨(c.procs.set p ⟨parent, [], .exited code⟩).map (orphan p), c.out ++ buf⟩

def next (c : Config σ Text) : Label → Option (Config σ Text)
  | .act p =>
      match c.procs[p]? with
      | some ⟨parent, buf, .running s⟩ => perform atOnce c p parent buf (prog.op s)
      | _ => none
  | .noFork p =>
      match c.procs[p]? with
      | some ⟨parent, buf, .running s⟩ =>
          match prog.op s with
          | .fork _ _ failed => some { c with procs := c.procs.set p ⟨parent, buf, .running failed⟩ }
          | _ => none
      | _ => none
  | .reap p q =>
      match c.procs[p]?, c.procs[q]? with
      | some ⟨parent, buf, .running s⟩, some ⟨some p', buf', .exited code⟩ =>
          match prog.op s with
          | .wait s =>
              if p' = p then
                some { c with procs := (c.procs.set q ⟨some p, buf', .reaped code⟩).set p
                                ⟨parent, buf, .running s⟩ }
              else none
          | _ => none
      | _, _ => none

/-- All interleavings of the processes. -/
def system : System (Config σ Text) Label where
  init c := c = initial prog
  step c l c' := next prog atOnce c l = some c'

end step

/-! ### Steps -/

section moves
variable {prog : Program σ Text} {atOnce : Text → Bool} {c c' : Config σ Text} {l : Label}

/-- What a step can do. -/
inductive Moves (prog : Program σ Text) (atOnce : Text → Bool) (c : Config σ Text) :
    Label → Config σ Text → Prop where
  | print {p parent buf s text s'} : c.procs[p]? = some ⟨parent, buf, .running s⟩ →
      prog.op s = .print text s' →
      Moves prog atOnce c (.act p)
        ⟨c.procs.set p ⟨parent, (put atOnce buf (text p parent)).1, .running s'⟩,
          c.out ++ (put atOnce buf (text p parent)).2⟩
  | fflush {p parent buf s s'} : c.procs[p]? = some ⟨parent, buf, .running s⟩ →
      prog.op s = .fflush s' →
      Moves prog atOnce c (.act p) ⟨c.procs.set p ⟨parent, [], .running s'⟩, c.out ++ buf⟩
  | fork {p parent buf s child s' failed} : c.procs[p]? = some ⟨parent, buf, .running s⟩ →
      prog.op s = .fork child s' failed →
      Moves prog atOnce c (.act p)
        ⟨c.procs.set p ⟨parent, buf, .running s'⟩ ++ [⟨some p, buf, .running child⟩], c.out⟩
  | noChild {p parent buf s s'} : c.procs[p]? = some ⟨parent, buf, .running s⟩ →
      prog.op s = .wait s' → (∀ pr ∈ c.procs, ¬ pr.awaits p) →
      Moves prog atOnce c (.act p) ⟨c.procs.set p ⟨parent, buf, .running s'⟩, c.out⟩
  | exit {p parent buf s code} : c.procs[p]? = some ⟨parent, buf, .running s⟩ →
      prog.op s = .exit code →
      Moves prog atOnce c (.act p)
        ⟨(c.procs.set p ⟨parent, [], .exited code⟩).map (orphan p), c.out ++ buf⟩
  | noFork {p parent buf s child s' failed} : c.procs[p]? = some ⟨parent, buf, .running s⟩ →
      prog.op s = .fork child s' failed →
      Moves prog atOnce c (.noFork p) ⟨c.procs.set p ⟨parent, buf, .running failed⟩, c.out⟩
  | reap {p q parent buf s s' buf' code} : c.procs[p]? = some ⟨parent, buf, .running s⟩ →
      prog.op s = .wait s' → c.procs[q]? = some ⟨some p, buf', .exited code⟩ →
      Moves prog atOnce c (.reap p q)
        ⟨(c.procs.set q ⟨some p, buf', .reaped code⟩).set p ⟨parent, buf, .running s'⟩, c.out⟩

theorem moves_iff : next prog atOnce c l = some c' ↔ Moves prog atOnce c l c' := by
  constructor
  · intro h
    cases l with
    | act p =>
      simp only [next] at h
      split at h
      · next parent buf s hp =>
        cases hop : prog.op s with
        | print text s' =>
          rw [hop] at h
          cases h
          exact .print hp hop
        | fflush s' =>
          rw [hop] at h
          cases h
          exact .fflush hp hop
        | fork child s' failed =>
          rw [hop] at h
          cases h
          exact .fork hp hop
        | wait s' =>
          rw [hop, perform] at h
          split at h
          · cases h
          · next hnone =>
            cases h
            exact .noChild hp hop (by simpa using hnone)
        | exit code =>
          rw [hop] at h
          cases h
          exact .exit hp hop
      · cases h
    | noFork p =>
      simp only [next] at h
      split at h
      · next parent buf s hp =>
        split at h
        · next child s' failed hop =>
          cases h
          exact .noFork hp hop
        · cases h
      · cases h
    | reap p q =>
      simp only [next] at h
      split at h
      · next parent buf s p' buf' code hp hq =>
        split at h
        · next s' hop =>
          split at h
          · next heq =>
            subst heq
            cases h
            exact .reap hp hop hq
          · cases h
        · cases h
      · cases h
  · intro h
    cases h with
    | print hp hop => simp [next, hp, hop, perform]
    | fflush hp hop => simp [next, hp, hop, perform]
    | fork hp hop => simp [next, hp, hop, perform]
    | @noChild p _ _ _ _ hp hop hnone =>
      have hany : c.procs.any (Process.awaits p) = false := by simpa using hnone
      simp [next, hp, hop, perform, hany]
    | exit hp hop => simp [next, hp, hop, perform]
    | noFork hp hop => simp [next, hp, hop]
    | reap hp hop hq => simp [next, hp, hq, hop]

/-- The process that takes the step. -/
def Label.actor : Label → ℕ
  | .act p | .noFork p | .reap p _ => p

/-- The configurations behind an operation of process `p`. -/
def After (atOnce : Text → Bool) (c : Config σ Text) (p : ℕ) (parent : Option ℕ)
    (buf : List Text) : Op σ Text → Config σ Text → Prop
  | .print text s, c' =>
      c' = ⟨c.procs.set p ⟨parent, (put atOnce buf (text p parent)).1, .running s⟩,
        c.out ++ (put atOnce buf (text p parent)).2⟩
  | .fflush s, c' => c' = ⟨c.procs.set p ⟨parent, [], .running s⟩, c.out ++ buf⟩
  | .fork child s failed, c' =>
      c' = ⟨c.procs.set p ⟨parent, buf, .running s⟩ ++ [⟨some p, buf, .running child⟩], c.out⟩ ∨
        c' = ⟨c.procs.set p ⟨parent, buf, .running failed⟩, c.out⟩
  | .wait s, c' =>
      (∀ pr ∈ c.procs, ¬ pr.awaits p) ∧ c' = ⟨c.procs.set p ⟨parent, buf, .running s⟩, c.out⟩ ∨
        ∃ q buf' code, c.procs[q]? = some ⟨some p, buf', .exited code⟩ ∧
          c' = ⟨(c.procs.set q ⟨some p, buf', .reaped code⟩).set p ⟨parent, buf, .running s⟩,
            c.out⟩
  | .exit code, c' =>
      c' = ⟨(c.procs.set p ⟨parent, [], .exited code⟩).map (orphan p), c.out ++ buf⟩

/-- A step by the operation that the process is at. -/
theorem Moves.after (h : Moves prog atOnce c l c') :
    ∃ parent buf s, c.procs[l.actor]? = some ⟨parent, buf, .running s⟩ ∧
      After atOnce c l.actor parent buf (prog.op s) c' := by
  cases h with
  | print hp hop =>
    refine ⟨_, _, _, hp, ?_⟩
    rw [hop]
    rfl
  | fflush hp hop =>
    refine ⟨_, _, _, hp, ?_⟩
    rw [hop]
    rfl
  | fork hp hop =>
    refine ⟨_, _, _, hp, ?_⟩
    rw [hop]
    exact .inl rfl
  | noChild hp hop hnone =>
    refine ⟨_, _, _, hp, ?_⟩
    rw [hop]
    exact .inl ⟨hnone, rfl⟩
  | exit hp hop =>
    refine ⟨_, _, _, hp, ?_⟩
    rw [hop]
    rfl
  | noFork hp hop =>
    refine ⟨_, _, _, hp, ?_⟩
    rw [hop]
    exact .inr rfl
  | reap hp hop hq =>
    refine ⟨_, _, _, hp, ?_⟩
    rw [hop]
    exact .inr ⟨_, _, _, hq, rfl⟩

/-! ### No deadlock -/

/-- A process is younger than its parent. -/
def Ordered (c : Config σ Text) : Prop :=
  ∀ q (pr : Process σ Text) p, c.procs[q]? = some pr → pr.parent = some p → p < q

theorem ordered_initial : Ordered (initial prog) := by
  intro q pr p hq hp
  obtain ⟨hlt, rfl⟩ := List.getElem?_eq_some_iff.mp hq
  have hq : q = 0 := by simpa [initial] using hlt
  subst hq
  cases hp

/-- Replacing a process by one with the same parent keeps the order. -/
theorem Ordered.set (h : Ordered c) {p : ℕ} {pr pr' : Process σ Text} {out : List Text}
    (hp : c.procs[p]? = some pr) (heq : pr'.parent = pr.parent) :
    Ordered ⟨c.procs.set p pr', out⟩ := by
  intro q prq parent hq hparent
  rw [List.getElem?_set] at hq
  split at hq
  · next hpq =>
    subst hpq
    split at hq
    · cases hq
      exact h p pr parent hp (heq ▸ hparent)
    · cases hq
  · exact h q prq parent hq hparent

theorem Ordered.step (h : Ordered c) (hstep : Moves prog atOnce c l c') : Ordered c' := by
  cases hstep with
  | print hp _ => exact h.set hp rfl
  | fflush hp _ => exact h.set hp rfl
  | noChild hp _ _ => exact h.set hp rfl
  | noFork hp _ => exact h.set hp rfl
  | @fork p parent buf s child s' failed hp _ =>
    have hold : Ordered ⟨c.procs.set p ⟨parent, buf, .running s'⟩, c.out⟩ := h.set hp rfl
    have hlt : p < c.procs.length := (List.getElem?_eq_some_iff.mp hp).1
    intro q pr p' hq hparent
    rw [List.getElem?_append] at hq
    split at hq
    · exact hold q pr p' hq hparent
    · next hge =>
      -- the new process
      rw [List.length_set] at hge hq
      obtain ⟨_, rfl⟩ := List.getElem?_eq_some_iff.mp hq
      have heq : p = p' := by simpa using hparent
      omega
  | @exit p parent buf s code hp _ =>
    have hold : Ordered ⟨c.procs.set p ⟨parent, [], .exited code⟩, c.out⟩ := h.set hp rfl
    intro q pr p' hq hparent
    rw [List.getElem?_map, Option.map_eq_some_iff] at hq
    obtain ⟨pr₀, hq₀, rfl⟩ := hq
    apply hold q pr₀ p' hq₀
    rw [orphan] at hparent
    split at hparent
    · cases hparent
    · exact hparent
  | @reap p q parent buf s s' buf' code hp _ hq =>
    have hold : Ordered ⟨c.procs.set q ⟨some p, buf', .reaped code⟩, c.out⟩ := h.set hq rfl
    have hlt : p < q := h q _ p hq rfl
    have hp' : (c.procs.set q ⟨some p, buf', .reaped code⟩)[p]? = some ⟨parent, buf, .running s⟩ := by
      rw [List.getElem?_set_ne (by omega)]
      exact hp
    exact hold.set hp' rfl

theorem ordered (h : (system prog atOnce).Reachable c) : Ordered c := by
  apply System.invariant ?_ ?_ h
  · intro c hc
    cases hc
    exact ordered_initial
  · intro c l c' hc hstep
    exact hc.step (moves_iff.mp hstep)

/-- While a process runs, it or a younger one can take a step: the youngest
    that runs has no running child to wait for. -/
theorem Ordered.exists_step (h : Ordered c) {p : ℕ} {parent : Option ℕ} {buf : List Text} {s : σ}
    (hp : c.procs[p]? = some ⟨parent, buf, .running s⟩) :
    ∃ l c', next prog atOnce c l = some c' := by
  induction hn : c.procs.length - p using Nat.strong_induction_on generalizing p parent buf s with
  | _ n ih =>
    cases hop : prog.op s with
    | print text s' => exact ⟨_, _, moves_iff.mpr (.print hp hop)⟩
    | fflush s' => exact ⟨_, _, moves_iff.mpr (.fflush hp hop)⟩
    | fork child s' failed => exact ⟨_, _, moves_iff.mpr (.fork hp hop)⟩
    | exit code => exact ⟨_, _, moves_iff.mpr (.exit hp hop)⟩
    | wait s' =>
      by_cases hnone : ∀ pr ∈ c.procs, ¬ pr.awaits p
      · exact ⟨_, _, moves_iff.mpr (.noChild hp hop hnone)⟩
      · simp only [not_forall, not_not] at hnone
        obtain ⟨⟨parent', buf', status⟩, hmem, hawaits⟩ := hnone
        obtain ⟨q, hq⟩ := List.mem_iff_getElem?.mp hmem
        have hparent : status ≠ .reaped 0 ∧ parent' = some p := by
          cases status with
          | reaped code => simp [Process.awaits] at hawaits
          | running s => simpa [Process.awaits] using hawaits
          | exited code => simpa [Process.awaits] using hawaits
        obtain ⟨-, rfl⟩ := hparent
        have hlt : p < q := h q _ p hq rfl
        have hqlt := (List.getElem?_eq_some_iff.mp hq).1
        cases status with
        | running s₁ => exact ih (c.procs.length - q) (by omega) hq rfl
        | exited code => exact ⟨_, _, moves_iff.mpr (.reap hp hop hq)⟩
        | reaped code => simp [Process.awaits] at hawaits

/-- **No deadlock**: where no step is possible, every process has exited. -/
theorem not_running_of_quiet (h : (system prog atOnce).Reachable c)
    (hquiet : ∀ l c', ¬ (system prog atOnce).step c l c') {p : ℕ} {pr : Process σ Text}
    (hp : c.procs[p]? = some pr) (s : σ) : pr.status ≠ .running s := by
  obtain ⟨parent, buf, status⟩ := pr
  intro hs
  subst hs
  obtain ⟨l, c', hstep⟩ : ∃ l c', next prog atOnce c l = some c' := (ordered h).exists_step hp
  exact hquiet l c' hstep

/-- Where every process has exited, no step is possible. -/
theorem quiet_of_exited (h : ∀ pr ∈ c.procs, ∀ s, pr.status ≠ .running s) (l : Label)
    (c' : Config σ Text) : ¬ (system prog atOnce).step c l c' := by
  intro hstep
  obtain ⟨parent, buf, s, hp, -⟩ := (moves_iff.mp hstep).after
  exact h _ (List.mem_of_getElem? hp) s rfl

/-! ### Termination -/

/-- The weight that a local state needs for its operation. -/
def Op.cost (weight : σ → ℕ) : Op σ Text → ℕ
  | .print _ s => weight s + 1
  | .fflush s => weight s + 1
  | .fork child s failed => max (weight child + weight s) (weight failed) + 1
  | .wait s => weight s + 1
  | .exit _ => 1

/-- Every operation uses up some of the weight of a local state. -/
def Weighs (prog : Program σ Text) (weight : σ → ℕ) : Prop :=
  ∀ s, (prog.op s).cost weight ≤ weight s

/-- The weight of a process. -/
def load (weight : σ → ℕ) (pr : Process σ Text) : ℕ :=
  match pr.status with
  | .running s => weight s
  | _ => 0

/-- The weight of all processes. -/
def total (weight : σ → ℕ) (c : Config σ Text) : ℕ := (c.procs.map (load weight)).sum

theorem sum_set {α : Type} (f : α → ℕ) {xs : List α} {i : ℕ} {x : α} (h : xs[i]? = some x)
    (y : α) : ((xs.set i y).map f).sum + f x = (xs.map f).sum + f y := by
  induction xs generalizing i with
  | nil => cases h
  | cons z xs ih =>
    cases i with
    | zero =>
      cases h
      simp only [List.set_cons_zero, List.map_cons, List.sum_cons]
      omega
    | succ i =>
      have hrest := ih h
      simp only [List.set_cons_succ, List.map_cons, List.sum_cons]
      omega

theorem load_orphan (weight : σ → ℕ) (p : ℕ) (pr : Process σ Text) :
    load weight (orphan p pr) = load weight pr := by
  rw [orphan]
  split <;> rfl

/-- Every step makes the processes lighter. -/
theorem Weighs.step {weight : σ → ℕ} (hw : Weighs prog weight)
    (hstep : Moves prog atOnce c l c') : total weight c' < total weight c := by
  cases hstep with
  | @print p parent buf s text s' hp hop =>
    have hsum := sum_set (load weight) hp ⟨parent, (put atOnce buf (text p parent)).1, .running s'⟩
    have hlt := hw s
    rw [hop, Op.cost] at hlt
    simp only [load] at hsum
    simp only [total] at *
    omega
  | @fflush p parent buf s s' hp hop =>
    have hsum := sum_set (load weight) hp ⟨parent, [], .running s'⟩
    have hlt := hw s
    rw [hop, Op.cost] at hlt
    simp only [total, load] at *
    omega
  | @noChild p parent buf s s' hp hop _ =>
    have hsum := sum_set (load weight) hp ⟨parent, buf, .running s'⟩
    have hlt := hw s
    rw [hop, Op.cost] at hlt
    simp only [total, load] at *
    omega
  | @noFork p parent buf s child s' failed hp hop =>
    have hsum := sum_set (load weight) hp ⟨parent, buf, .running failed⟩
    have hlt := hw s
    rw [hop, Op.cost] at hlt
    simp only [total, load] at *
    omega
  | @fork p parent buf s child s' failed hp hop =>
    have hsum := sum_set (load weight) hp ⟨parent, buf, .running s'⟩
    have hlt := hw s
    rw [hop, Op.cost] at hlt
    simp only [total, load, List.map_append, List.map_cons, List.map_nil, List.sum_append,
      List.sum_cons, List.sum_nil] at *
    omega
  | @exit p parent buf s code hp hop =>
    have hsum := sum_set (load weight) hp ⟨parent, [], .exited code⟩
    have hlt := hw s
    rw [hop, Op.cost] at hlt
    have horphan : load weight ∘ (orphan p : Process σ Text → Process σ Text) = load weight :=
      funext (load_orphan weight p)
    simp only [total, List.map_map, horphan]
    simp only [load] at hsum ⊢
    omega
  | @reap p q parent buf s s' buf' code hp hop hq =>
    have hne : q ≠ p := by
      intro heq
      subst heq
      rw [hp] at hq
      cases hq
    have hsum := sum_set (load weight) hq ⟨some p, buf', .reaped code⟩
    have hp' : (c.procs.set q ⟨some p, buf', .reaped code⟩)[p]? = some ⟨parent, buf, .running s⟩ := by
      rw [List.getElem?_set_ne hne]
      exact hp
    have hsum' := sum_set (load weight) hp' ⟨parent, buf, .running s'⟩
    have hlt := hw s
    rw [hop, Op.cost] at hlt
    simp only [total, load] at *
    omega

/-- **Termination**: the weight of the program bounds the length of its runs. -/
theorem run_length_le {weight : σ → ℕ} (hw : Weighs prog weight) {ls : List Label}
    (h : (system prog atOnce).Run (initial prog) ls c) :
    ls.length ≤ weight prog.start := by
  have hle := h.length_le (total weight)
    (fun _ _ _ _ hstep => hw.step (moves_iff.mp hstep)) (.init rfl)
  have hinit : total weight (initial prog) = weight prog.start := by
    simp [total, load, initial]
  omega

end moves

end Processes
