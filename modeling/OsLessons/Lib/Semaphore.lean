import OsLessons.Lib.Transition
import OsLessons.Lib.Census

/-! # Threads over semaphores

  Threads or processes that share data and counting semaphores. A thread is a
  local state and a program that says what it does next (`Op`): one semaphore
  operation, a join, or a piece of its own code. `next` performs an event;
  `Step` lists what an event can do.

  - `Step.value_sub`: how a step changes a weighted sum of the semaphores, the
    data and the local states. Conservation laws are such sums.
  - `run_length_le`: a sum that every operation lowers bounds the runs.
  - `stuck_of_quiet`: where nobody can move, what everybody waits for.
  - `Mirrors.reachable`: a program that behaves, in a part of its state, like
    another one inherits what holds there.
-/

namespace Semaphore

open Lts

/-- What a thread does next. `A` are the answers the world can give to its own
    code. -/
inductive Op (D κ T A L : Type*) where
  /-- `sem_wait`: takes one unit of `k`, and blocks if there is none -/
  | wait (k : κ) (l : L)
  /-- `n` units more -/
  | post (k : κ) (n : ℕ) (l : L)
  /-- own code with its access to the data; `none` if the answer is not possible -/
  | act (f : D → A → Option (D × L))
  /-- waits for the end of thread `u` -/
  | join (u : T) (l : L)
  | exit

/-- One event of a run. -/
inductive Event (T A : Type*) where
  /-- `t` performs a semaphore operation or a join -/
  | run (t : T)
  /-- `t` executes its own code -/
  | act (t : T) (a : A)
  /-- `t` handles a signal -/
  | signal (t : T)
  deriving DecidableEq

/-- The program of every thread, and what its signal handler makes of the local
    state (`none`: it has none). -/
structure Program (D κ A : Type*) {T : Type*} (L : T → Type*) where
  op : ∀ t, L t → Op D κ T A (L t)
  handler : ∀ t, L t → Option (L t) := fun _ _ => none

/-- The shared data, the semaphores and the local states. -/
structure Host (D κ : Type*) {T : Type*} (L : T → Type*) where
  data : D
  sem : κ → ℕ
  thread : ∀ t, L t

/-- The thread has ended. -/
def Op.isExit {D κ T A L : Type*} : Op D κ T A L → Bool
  | .exit => true
  | _ => false

section threads
variable {D κ A T : Type*} {L : T → Type*}

section goto
variable [DecidableEq T]

/-- Set the local state of thread `t`. -/
def Host.goto (s : Host D κ L) (t : T) (l : L t) : Host D κ L :=
  { s with thread := Function.update s.thread t l }

@[simp] theorem Host.goto_data (s : Host D κ L) (t : T) (l : L t) :
    (s.goto t l).data = s.data := rfl
@[simp] theorem Host.goto_sem (s : Host D κ L) (t : T) (l : L t) :
    (s.goto t l).sem = s.sem := rfl
@[simp] theorem Host.goto_thread_self (s : Host D κ L) (t : T) (l : L t) :
    (s.goto t l).thread t = l := Function.update_self ..
theorem Host.goto_thread_ne (s : Host D κ L) {t u : T} (l : L t) (h : u ≠ t) :
    (s.goto t l).thread u = s.thread u := Function.update_of_ne h ..

end goto

variable [DecidableEq κ] [DecidableEq T]

/-- Perform an event; `none` if it is not possible. -/
def next (P : Program D κ A L) (s : Host D κ L) : Event T A → Option (Host D κ L)
  | .run t =>
      match P.op t (s.thread t) with
      | .wait k l =>
          if 0 < s.sem k then
            some ({ s with sem := Function.update s.sem k (s.sem k - 1) }.goto t l)
          else none
      | .post k n l => some ({ s with sem := Function.update s.sem k (s.sem k + n) }.goto t l)
      | .join u l => if (P.op u (s.thread u)).isExit then some (s.goto t l) else none
      | _ => none
  | .act t a =>
      match P.op t (s.thread t) with
      | .act f => (f s.data a).map fun r => { s with data := r.1 }.goto t r.2
      | _ => none
  | .signal t => (P.handler t (s.thread t)).map fun l => s.goto t l

/-- What an event can do. -/
inductive Step (P : Program D κ A L) (s : Host D κ L) : Event T A → Host D κ L → Prop where
  | wait {t k l} : P.op t (s.thread t) = .wait k l → 0 < s.sem k →
      Step P s (.run t) ({ s with sem := Function.update s.sem k (s.sem k - 1) }.goto t l)
  | post {t k n l} : P.op t (s.thread t) = .post k n l →
      Step P s (.run t) ({ s with sem := Function.update s.sem k (s.sem k + n) }.goto t l)
  | join {t u l} : P.op t (s.thread t) = .join u l → (P.op u (s.thread u)).isExit = true →
      Step P s (.run t) (s.goto t l)
  | act {t a f d l} : P.op t (s.thread t) = .act f → f s.data a = some (d, l) →
      Step P s (.act t a) ({ s with data := d }.goto t l)
  | signal {t l} : P.handler t (s.thread t) = some l → Step P s (.signal t) (s.goto t l)

variable {P : Program D κ A L} {s s' : Host D κ L} {e : Event T A}

theorem step_of_next (h : next P s e = some s') : Step P s e s' := by
  cases e with
  | run t =>
    simp only [next] at h
    split at h
    · next k l hop =>
      split at h
      · next hpos =>
        cases h
        exact .wait hop hpos
      · cases h
    · next k n l hop =>
      cases h
      exact .post hop
    · next u l hop =>
      split at h
      · next hexit =>
        cases h
        exact .join hop hexit
      · cases h
    · cases h
  | act t a =>
    simp only [next] at h
    split at h
    · next f hop =>
      obtain ⟨⟨d, l⟩, hf, heq⟩ := Option.map_eq_some_iff.mp h
      cases heq
      exact .act hop hf
    · cases h
  | signal t =>
    obtain ⟨l, hl, heq⟩ := Option.map_eq_some_iff.mp h
    cases heq
    exact .signal hl

/-- The thread an event belongs to. -/
def Event.thread : Event T A → T
  | .run t | .act t _ | .signal t => t

/-- A step of one thread leaves the others where they are. -/
theorem Step.frame (h : Step P s e s') {u : T} (hu : u ≠ e.thread) :
    s'.thread u = s.thread u := by
  cases h <;> exact Host.goto_thread_ne _ _ hu

/-- The operation can lead from `s` to `s'`, with the thread in `l'`. -/
def Op.Leads {l : Type*} (P : Program D κ A L) (s s' : Host D κ L) (l' : l) :
    Op D κ T A l → Prop
  | .wait k l₁ => 0 < s.sem k ∧ s'.data = s.data ∧ l' = l₁
  | .post _ _ l₁ => s'.data = s.data ∧ l' = l₁
  | .join u l₁ => (P.op u (s.thread u)).isExit = true ∧ s'.data = s.data ∧ l' = l₁
  | .act f => ∃ a, f s.data a = some (s'.data, l')
  | .exit => False

/-- The thread that moves follows its operation, or handles a signal. -/
theorem Step.leads (h : Step P s e s') :
    (P.op e.thread (s.thread e.thread)).Leads P s s' (s'.thread e.thread) ∨
      s'.data = s.data ∧
        P.handler e.thread (s.thread e.thread) = some (s'.thread e.thread) := by
  cases h with
  | @wait t k l hop hpos =>
    left
    simp only [Event.thread, hop, Host.goto_thread_self]
    exact ⟨hpos, rfl, rfl⟩
  | @post t k n l hop =>
    left
    simp only [Event.thread, hop, Host.goto_thread_self]
    exact ⟨rfl, rfl⟩
  | @join t u l hop hexit =>
    left
    simp only [Event.thread, hop, Host.goto_thread_self]
    exact ⟨hexit, rfl, rfl⟩
  | @act t a f d l hop hf =>
    left
    simp only [Event.thread, hop, Host.goto_thread_self]
    exact ⟨a, hf⟩
  | @signal t l hl =>
    right
    simp only [Event.thread, Host.goto_thread_self]
    exact ⟨rfl, hl⟩

/-- Whatever the operation returns, the thread goes on in a local state with `Q`. -/
def Op.Then {L : Type*} (Q : L → Prop) : Op D κ T A L → Prop
  | .wait _ l | .post _ _ l | .join _ l => Q l
  | .act f => ∀ d a d' l, f d a = some (d', l) → Q l
  | .exit => True

omit [DecidableEq κ] in
theorem goto_local {I : ∀ t, L t → Prop} {s : Host D κ L} (hs : ∀ t, I t (s.thread t)) {t : T}
    {l : L t} (hl : I t l) (u : T) : I u ((s.goto t l).thread u) := by
  rcases eq_or_ne u t with rfl | hne
  · rwa [Host.goto_thread_self]
  · rw [Host.goto_thread_ne _ _ hne]
    exact hs u

/-- **Local invariant**: what the operations of every thread keep of its own
    local state holds throughout. -/
theorem Step.then {I : ∀ t, L t → Prop} (h : Step P s e s')
    (hop : ∀ t l, I t l → (P.op t l).Then (I t))
    (hsignal : ∀ t l l', I t l → P.handler t l = some l' → I t l')
    (hs : ∀ t, I t (s.thread t)) : ∀ t, I t (s'.thread t) := by
  cases h with
  | @wait t k l hw _ | @post t k _ l hw | @join t u l hw _ =>
    have hthen := hop t _ (hs t)
    rw [hw] at hthen
    exact goto_local hs hthen
  | @act t a f d l hw hf =>
    have hthen := hop t _ (hs t)
    rw [hw] at hthen
    exact goto_local hs (hthen _ _ _ _ hf)
  | signal hl => exact goto_local hs (hsignal _ _ _ (hs _) hl)

/-! ### Conservation -/

/-- Whatever the operation returns, the sum of `c k` for every unit of a
    semaphore `k`, `f` of the data and `w` of the local state changes by a
    number with `Q`. -/
def Op.Delta {L : Type*} (c : κ → ℤ) (f : D → ℤ) (w : L → ℤ) (l : L) (d : D) (Q : ℤ → Prop) :
    Op D κ T A L → Prop
  | .wait k l' => Q (w l' - w l - c k)
  | .post k n l' => Q (w l' - w l + n * c k)
  | .act g => ∀ a d' l', g d a = some (d', l') → Q (f d' - f d + (w l' - w l))
  | .join _ l' => Q (w l' - w l)
  | .exit => True

/-- One for every unit of `k`. -/
def unit (k : κ) : κ → ℤ := fun k' => if k' = k then 1 else 0

@[simp] theorem unit_self (k : κ) : unit k k = 1 := if_pos rfl

variable [Fintype κ] [Fintype T]

/-- The weighted sum of semaphores, data and local states. -/
def value (c : κ → ℤ) (f : D → ℤ) (w : ∀ t, L t → ℤ) (s : Host D κ L) : ℤ :=
  ∑ k, c k * s.sem k + f s.data + ∑ t, w t (s.thread t)

omit [Fintype T] [DecidableEq T] in
@[simp] theorem sum_unit (k : κ) (g : κ → ℕ) : ∑ k', unit k k' * (g k' : ℤ) = g k := by
  simp [unit]

omit [DecidableEq T] in
theorem value_unit (k : κ) (f : D → ℤ) (w : ∀ t, L t → ℤ) (s : Host D κ L) :
    value (unit k) f w s = s.sem k + f s.data + ∑ t, w t (s.thread t) := by
  rw [value, sum_unit]

/-- A sum over the threads changes by what the thread that moves weighs. -/
theorem sum_frame {D κ T : Type*} {L : T → Type*} [DecidableEq T] [Fintype T] {s s' : Host D κ L}
    {t : T} (w : ∀ t, L t → ℤ) (h : ∀ u, u ≠ t → s'.thread u = s.thread u) :
    ∑ u, w u (s'.thread u) =
      ∑ u, w u (s.thread u) + (w t (s'.thread t) - w t (s.thread t)) := by
  have hsum := Census.sum_update w (Finset.mem_univ t) s.thread (s'.thread t)
  have hthread : Function.update s.thread t (s'.thread t) = s'.thread := by
    rw [Function.update_eq_iff]
    exact ⟨rfl, fun u hu => (h u hu).symm⟩
  rw [hthread] at hsum
  omega

omit [DecidableEq κ] [Fintype κ] in
theorem sum_goto (w : ∀ t, L t → ℤ) (s : Host D κ L) (t : T) (l : L t) :
    ∑ u, w u ((s.goto t l).thread u) =
      ∑ u, w u (s.thread u) + (w t l - w t (s.thread t)) := by
  rw [sum_frame w fun u hu => Host.goto_thread_ne s l hu, Host.goto_thread_self]

omit [DecidableEq T] [Fintype T] in
theorem sum_update (c : κ → ℤ) (g : κ → ℕ) (k : κ) (n : ℕ) :
    ∑ k', c k' * (Function.update g k n k' : ℤ) =
      ∑ k', c k' * (g k' : ℤ) + c k * ((n : ℤ) - g k) := by
  have hsum := Census.sum_update (fun k' (m : ℕ) => c k' * (m : ℤ)) (Finset.mem_univ k) g n
  rw [mul_sub]
  omega

/-- **Conservation rule**: a step changes the sum by what its operation does. -/
theorem Step.value_sub {c : κ → ℤ} {f : D → ℤ} {w : ∀ t, L t → ℤ} {Q : ℤ → Prop}
    (h : Step P s e s')
    (hop : ∀ t, (P.op t (s.thread t)).Delta c f (w t) (s.thread t) s.data Q)
    (hsignal : ∀ t l, P.handler t (s.thread t) = some l → Q (w t l - w t (s.thread t))) :
    Q (value c f w s' - value c f w s) := by
  have hsem : ∀ (s₁ s₂ : Host D κ L) (δ : ℤ), Q δ →
      value c f w s₂ = value c f w s₁ + δ → Q (value c f w s₂ - value c f w s₁) := by
    intro s₁ s₂ δ hδ heq
    rwa [heq, add_sub_cancel_left]
  cases h with
  | @wait t k l hwait hpos =>
    have hq := hop t
    rw [hwait] at hq
    apply hsem _ _ _ hq
    unfold value
    rw [sum_goto, Host.goto_sem, Host.goto_data, sum_update]
    push_cast [hpos]
    ring
  | @post t k n l hpost =>
    have hq := hop t
    rw [hpost] at hq
    apply hsem _ _ _ hq
    unfold value
    rw [sum_goto, Host.goto_sem, Host.goto_data, sum_update]
    push_cast
    ring
  | @join t u l hjoin _ =>
    have hq := hop t
    rw [hjoin] at hq
    apply hsem _ _ _ hq
    unfold value
    rw [sum_goto, Host.goto_sem, Host.goto_data]
    ring
  | @act t a g d l hact hg =>
    have hq := hop t
    rw [hact] at hq
    apply hsem _ _ _ (hq _ _ _ hg)
    unfold value
    rw [sum_goto, Host.goto_sem, Host.goto_data]
    ring
  | @signal t l hl =>
    apply hsem _ _ _ (hsignal t l hl)
    unfold value
    rw [sum_goto, Host.goto_sem, Host.goto_data]
    ring

/-! ### Progress -/

/-- The operation cannot be performed in `s`: there is no unit to take, the
    other thread has not ended, there is no answer, or there is nothing to do. -/
def Op.Stuck {l : Type*} (P : Program D κ A L) (s : Host D κ L) : Op D κ T A l → Prop
  | .wait k _ => s.sem k = 0
  | .post _ _ _ => False
  | .join u _ => (P.op u (s.thread u)).isExit = false
  | .act f => ∀ a, f s.data a = none
  | .exit => True

omit [Fintype κ] [Fintype T] in
/-- Where no thread can move on its own, every thread is stuck. -/
theorem stuck_of_quiet (hrun : ∀ t, next P s (.run t) = none)
    (hact : ∀ t a, next P s (.act t a) = none) (t : T) : (P.op t (s.thread t)).Stuck P s := by
  cases hop : P.op t (s.thread t) with
  | wait k l =>
    have hnone := hrun t
    simp only [next, hop, ite_eq_right_iff, reduceCtorEq, imp_false, not_lt,
      Nat.le_zero] at hnone
    exact hnone
  | post k n l =>
    have hnone := hrun t
    simp [next, hop] at hnone
  | join u l =>
    have hnone := hrun t
    simp only [next, hop, ite_eq_right_iff, reduceCtorEq, imp_false, Bool.not_eq_true] at hnone
    exact hnone
  | act f =>
    intro a
    have hnone := hact t a
    simpa [next, hop] using hnone
  | exit => trivial

/-! ### Runs -/

/-- The threads as a transition system. -/
def system (P : Program D κ A L) (init : Host D κ L → Prop) :
    System (Host D κ L) (Event T A) where
  init := init
  step := Step P

omit [Fintype κ] [Fintype T] in
theorem stuck_of_not_enabled {init : Host D κ L → Prop}
    (hquiet : ∀ e, ¬ (system P init).Enabled s e) (t : T) :
    (P.op t (s.thread t)).Stuck P s := by
  have hnone : ∀ e, next P s e = none := by
    intro e
    cases hnext : next P s e with
    | none => rfl
    | some s' => exact absurd ⟨s', step_of_next hnext⟩ (hquiet e)
  exact stuck_of_quiet (fun t => hnone _) (fun t a => hnone _) t

/-- Perform events in order; `none` if one of them is not possible. -/
def replay (P : Program D κ A L) : Host D κ L → List (Event T A) → Option (Host D κ L) :=
  System.follow (next P)

omit [Fintype κ] [Fintype T] in
theorem Run.of_replay {init : Host D κ L → Prop} {es : List (Event T A)}
    (h : replay P s es = some s') : (system P init).Run s es s' :=
  System.Run.of_follow (fun _ _ _ => step_of_next) h

omit [Fintype κ] [Fintype T] in
/-- A local invariant holds in every reachable state. -/
theorem reachable_local {init : Host D κ L → Prop} {I : ∀ t, L t → Prop}
    (hinit : ∀ s, init s → ∀ t, I t (s.thread t))
    (hop : ∀ t l, I t l → (P.op t l).Then (I t))
    (hsignal : ∀ t l l', I t l → P.handler t l = some l' → I t l')
    (h : (system P init).Reachable s) : ∀ t, I t (s.thread t) := by
  apply System.invariant hinit _ h
  intro s e s' hs hstep
  exact Step.then hstep hop hsignal hs

/-- A sum that no operation changes where the local invariant `I` holds is what
    it was at the start. -/
theorem conserved {init : Host D κ L → Prop} {I : ∀ t, L t → Prop} {c : κ → ℤ} {f : D → ℤ}
    {w : ∀ t, L t → ℤ}
    (hI : ∀ s, (system P init).Reachable s → ∀ t, I t (s.thread t))
    (hop : ∀ t l d, I t l → (P.op t l).Delta c f (w t) l d (· = 0))
    (hsignal : ∀ t l l', I t l → P.handler t l = some l' → w t l' = w t l)
    (h : (system P init).Reachable s) : ∃ s₀, init s₀ ∧ value c f w s = value c f w s₀ := by
  induction h with
  | @init s hs => exact ⟨s, hs, rfl⟩
  | @step s e s' hreach hstep ih =>
    obtain ⟨s₀, h₀, hvalue⟩ := ih
    have hlocal := hI s hreach
    have hsub := Step.value_sub (c := c) (f := f) (w := w) (Q := (· = 0)) hstep
      (fun t => hop t _ _ (hlocal t))
      (fun t l hl => by rw [hsignal t _ _ (hlocal t) hl, sub_self])
    exact ⟨s₀, h₀, by omega⟩

/-- **Termination rule**: if every operation, and every signal, takes at least
    one off a sum where the local invariant `I` holds, a run is no longer than
    what the sum loses. -/
theorem run_length_le {init : Host D κ L → Prop} {I : ∀ t, L t → Prop} {c : κ → ℤ} {f : D → ℤ}
    {w : ∀ t, L t → ℤ} {es : List (Event T A)}
    (hI : ∀ s, (system P init).Reachable s → ∀ t, I t (s.thread t))
    (hop : ∀ t l d, I t l → (P.op t l).Delta c f (w t) l d (· ≤ -1))
    (hsignal : ∀ t l l', I t l → P.handler t l = some l' → w t l' - w t l ≤ -1)
    (h : (system P init).Run s es s') (hs : (system P init).Reachable s) :
    es.length + value c f w s' ≤ value c f w s := by
  induction h with
  | nil s => simp
  | @cons s s₁ s₂ e es hstep _ ih =>
    have hlocal := hI s hs
    have hsub := Step.value_sub (c := c) (f := f) (w := w) (Q := (· ≤ -1)) hstep
      (fun t => hop t _ _ (hlocal t)) (fun t l hl => hsignal t _ _ (hlocal t) hl)
    have hrest := ih (hs.step hstep)
    rw [List.length_cons]
    push_cast
    omega

end threads

/-! ### Programs inside programs -/

section mirror
variable {D D' κ κ' A A' T : Type*} {L L' : T → Type*}

/-- Seen through `π`, `ι` and `view`, the operation at `l` is the operation `q`,
    or it does nothing that can be seen. -/
def Op.Mirrors {L L' : Type*} (π : D → D') (ι : κ' → κ) (view : L → L') (l : L) :
    Op D κ T A L → Op D' κ' T A' L' → Prop
  | .wait k l', q =>
      (∃ k', k = ι k' ∧ q = .wait k' (view l')) ∨ ((∀ k', k ≠ ι k') ∧ view l' = view l)
  | .post k n l', q =>
      (∃ k', k = ι k' ∧ q = .post k' n (view l')) ∨ ((∀ k', k ≠ ι k') ∧ view l' = view l)
  | .act f, q => ∀ d a d' l', f d a = some (d', l') →
      (∃ g a', q = .act g ∧ g (π d) a' = some (π d', view l')) ∨
        (π d' = π d ∧ view l' = view l)
  | .join _ l', _ => view l' = view l
  | .exit, _ => True

/-- A piece of code over a part of the data and of the semaphores, which goes on
    in `k` of its own local state. -/
def Op.embed {L L' : Type*} (get : D → D') (put : D → D' → D) (ι : κ' → κ) (k : L' → L) :
    Op D' κ' T Unit L' → Op D κ T A L
  | .wait k' l => .wait (ι k') (k l)
  | .post k' n l => .post (ι k') n (k l)
  | .act f => .act fun d _ => (f (get d) ()).map fun r => (put d r.1, k r.2)
  | .join u l => .join u (k l)
  | .exit => .exit

/-- Code inside a larger program mirrors the same code inside a smaller one. -/
theorem Op.embed_mirrors {L L' M D₁ κ₁ : Type*} [Nonempty A'] {π : D → D'} {ι : κ' → κ}
    {view : L → L'} (get : D' → D₁) {put : D → D₁ → D} (put' : D' → D₁ → D') (ι₁ : κ₁ → κ')
    {k : M → L} {k' : M → L'} {l : L} {o : Op D₁ κ₁ T Unit M}
    (hjoin : ∀ u m, o ≠ .join u m) (hput : ∀ d x, π (put d x) = put' (π d) x)
    (hview : ∀ m, view (k m) = k' m) :
    (o.embed (get ∘ π) put (ι ∘ ι₁) k : Op D κ T A L).Mirrors π ι view l
      (o.embed get put' ι₁ k' : Op D' κ' T A' L') := by
  cases o with
  | wait k₁ m =>
    left
    exact ⟨ι₁ k₁, rfl, by rw [hview]; rfl⟩
  | post k₁ n m =>
    left
    exact ⟨ι₁ k₁, rfl, by rw [hview]; rfl⟩
  | act f =>
    intro d a d' l' hf
    obtain ⟨⟨x, m⟩, hx, heq⟩ := Option.map_eq_some_iff.mp hf
    cases heq
    left
    refine ⟨_, Classical.arbitrary A', rfl, ?_⟩
    rw [Option.map_eq_some_iff]
    exact ⟨(x, m), hx, by rw [hput, hview]⟩
  | join u m => exact absurd rfl (hjoin u m)
  | exit => trivial

/-- The part of a state that is seen. -/
def image (π : D → D') (ι : κ' → κ) (view : ∀ t, L t → L' t) (s : Host D κ L) :
    Host D' κ' L' where
  data := π s.data
  sem k := s.sem (ι k)
  thread t := view t (s.thread t)

/-- Seen through `π`, `ι` and `view`, the program `P` is the program `P'`. -/
structure Mirrors (P : Program D κ A L) (P' : Program D' κ' A' L') (π : D → D') (ι : κ' → κ)
    (view : ∀ t, L t → L' t) : Prop where
  inj : Function.Injective ι
  op : ∀ t l, (P.op t l).Mirrors π ι (view t) l (P'.op t (view t l))
  signal : ∀ t l l', P.handler t l = some l' → view t l' = view t l

variable [DecidableEq κ] [DecidableEq κ'] [DecidableEq T]
  {P : Program D κ A L} {P' : Program D' κ' A' L'} {π : D → D'} {ι : κ' → κ}
  {view : ∀ t, L t → L' t}

omit [DecidableEq κ] [DecidableEq κ'] in
theorem image_goto (s : Host D κ L) (t : T) (l : L t) :
    image π ι view (s.goto t l) = (image π ι view s).goto t (view t l) := by
  have hthread : (fun u => view u ((s.goto t l).thread u)) =
      ((image π ι view s).goto t (view t l)).thread := by
    funext u
    rcases eq_or_ne u t with rfl | hne
    · rw [Host.goto_thread_self, Host.goto_thread_self]
    · rw [Host.goto_thread_ne _ _ hne, Host.goto_thread_ne _ _ hne]
      rfl
  unfold image
  rw [hthread]
  rfl

omit [DecidableEq κ] [DecidableEq κ'] in
theorem goto_view (s : Host D κ L) (t : T) {l : L t} (h : view t l = view t (s.thread t)) :
    (image π ι view s).goto t (view t l) = image π ι view s := by
  rw [h]
  unfold Host.goto
  simp only [image, Function.update_eq_self]

/-- A step of `P` is a step of `P'`, or it is not seen. -/
theorem Mirrors.step (hm : Mirrors P P' π ι view) {s s' : Host D κ L} {e : Event T A}
    (h : Step P s e s') :
    image π ι view s' = image π ι view s ∨
      ∃ e', Step P' (image π ι view s) e' (image π ι view s') := by
  have hsem : ∀ k' n, (fun k => Function.update s.sem (ι k') n (ι k)) =
      Function.update (fun k => s.sem (ι k)) k' n := fun k' n =>
    Function.update_comp_eq_of_injective _ hm.inj _ _
  cases h with
  | @wait t k l hop hpos =>
    have hq := hm.op t (s.thread t)
    rw [hop] at hq
    rw [image_goto]
    rcases hq with ⟨k', rfl, hwait⟩ | ⟨hk, hview⟩
    · right
      refine ⟨.run t, ?_⟩
      have hstep := Step.wait (s := image π ι view s) hwait hpos
      simpa only [image, hsem] using hstep
    · left
      rw [← goto_view s t hview]
      simp only [image, Function.update_of_ne (Ne.symm (hk _))]
  | @post t k n l hop =>
    have hq := hm.op t (s.thread t)
    rw [hop] at hq
    rw [image_goto]
    rcases hq with ⟨k', rfl, hpost⟩ | ⟨hk, hview⟩
    · right
      refine ⟨.run t, ?_⟩
      have hstep := Step.post (s := image π ι view s) hpost
      simpa only [image, hsem] using hstep
    · left
      rw [← goto_view s t hview]
      simp only [image, Function.update_of_ne (Ne.symm (hk _))]
  | @join t u l hop _ =>
    have hq := hm.op t (s.thread t)
    rw [hop] at hq
    left
    rw [image_goto, goto_view s t hq]
  | @act t a f d l hop hf =>
    have hq := hm.op t (s.thread t)
    rw [hop] at hq
    rw [image_goto]
    rcases hq _ _ _ _ hf with ⟨g, a', hact, hg⟩ | ⟨hdata, hview⟩
    · right
      exact ⟨.act t a', Step.act (s := image π ι view s) hact hg⟩
    · left
      rw [← goto_view s t hview]
      simp only [image, hdata]
  | @signal t l hl =>
    left
    rw [image_goto, goto_view s t (hm.signal _ _ _ hl)]

/-- **Inheritance**: what is seen of a reachable state of `P` is a reachable
    state of `P'`. -/
theorem Mirrors.reachable (hm : Mirrors P P' π ι view) {init : Host D κ L → Prop}
    {init' : Host D' κ' L' → Prop} (hinit : ∀ s, init s → init' (image π ι view s))
    {s : Host D κ L} (h : (system P init).Reachable s) :
    (system P' init').Reachable (image π ι view s) := by
  induction h with
  | init hs => exact .init (hinit _ hs)
  | step _ hstep ih =>
    rcases hm.step hstep with hsame | ⟨e', hstep'⟩
    · rwa [hsame]
    · exact .step ih hstep'

end mirror

end Semaphore
