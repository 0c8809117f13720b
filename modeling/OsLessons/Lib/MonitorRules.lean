import OsLessons.Lib.Monitor

/-! # Rules for threads over a monitor

  - `reachable_local`: invariants of the local states alone.
  - `conserved`: sums over the shared data and the local states.
  - `watched`: the threads that have been signalled and have not come back to
    their critical section since, as an observer beside the system.
-/

namespace Monitor

open Lts

section rules
variable {D κ W A T : Type*} {L : T → Type*} [DecidableEq κ] [DecidableEq T] [Fintype T]
  {op : ∀ t, L t → Op D κ W A (L t)} {s s' : Host D κ W L} {e : Event T A}
  {init : Host D κ W L → Prop}

/-! ### Who moves -/

/-- The operation can lead from `s` to `s'`, with the thread in `l'`. -/
def Op.Leads {l : Type*} (s s' : Host D κ W L) (l' : l) : Op D κ W A l → Prop
  | .call k => s'.data = s.data ∧ ∃ a w, k s.world a = some (w, l')
  | .lock l₁ => s'.data = s.data ∧ l' = l₁
  | .critical k => s'.data = (k s.data).data ∧ l' = (k s.data).next
  | .exit => False

/-- A step moves one thread by its operation, or wakes a sleeper for nothing. -/
theorem Step.leads (h : Step op s e s') :
    (s'.data = s.data ∧ s'.thread = s.thread) ∨
      ∃ t, (∀ u ≠ t, s'.thread u = s.thread u) ∧
        (op t (s.thread t)).Leads s s' (s'.thread t) := by
  cases h with
  | @call t a k w l hop hk =>
    refine .inr ⟨t, fun u hu => Host.goto_thread_ne _ _ hu, ?_⟩
    rw [hop, Host.goto_thread_self]
    exact ⟨rfl, a, w, hk⟩
  | @lock t l hop _ _ =>
    refine .inr ⟨t, fun u hu => Host.goto_thread_ne _ _ hu, ?_⟩
    rw [hop, Host.goto_thread_self]
    exact ⟨rfl, rfl⟩
  | @leave t picks k z hop _ =>
    refine .inr ⟨t, fun u hu => Host.goto_thread_ne _ _ hu, ?_⟩
    rw [hop, Host.goto_thread_self]
    exact ⟨rfl, rfl⟩
  | spurious => exact .inl ⟨rfl, rfl⟩

/-! ### Local invariants -/

/-- Whatever happens, the thread goes on in a local state with `Q`. -/
def Op.Then {L : Type*} (Q : L → Prop) : Op D κ W A L → Prop
  | .call k => ∀ w a w' l, k w a = some (w', l) → Q l
  | .lock l => Q l
  | .critical k => ∀ d, Q (k d).next
  | .exit => True

omit [Fintype T] [DecidableEq κ] in
theorem goto_local {I : ∀ t, L t → Prop} {s : Host D κ W L} (hs : ∀ t, I t (s.thread t)) {t : T}
    {l : L t} (hl : I t l) (u : T) : I u ((s.goto t l).thread u) := by
  rcases eq_or_ne u t with rfl | hne
  · rwa [Host.goto_thread_self]
  · rw [Host.goto_thread_ne _ _ hne]
    exact hs u

theorem Step.then {I : ∀ t, L t → Prop} (h : Step op s e s')
    (hop : ∀ t l, I t l → (op t l).Then (I t)) (hs : ∀ t, I t (s.thread t)) :
    ∀ t, I t (s'.thread t) := by
  cases h with
  | @call t a k w l hc hk =>
    have hthen := hop t _ (hs t)
    rw [hc] at hthen
    exact goto_local (s := { s with world := w }) hs (hthen _ _ _ _ hk)
  | @lock t l hc _ _ =>
    have hthen := hop t _ (hs t)
    rw [hc] at hthen
    exact goto_local (s := { s with owner := some t }) hs hthen
  | @leave t picks k z hc _ =>
    have hthen := hop t _ (hs t)
    rw [hc] at hthen
    exact goto_local (s := { s with data := _, owner := none, asleep := _ }) hs (hthen _)
  | spurious => exact hs

/-- A local invariant holds in every reachable state. -/
theorem reachable_local {I : ∀ t, L t → Prop} (hinit : ∀ s, init s → ∀ t, I t (s.thread t))
    (hop : ∀ t l, I t l → (op t l).Then (I t)) (h : (system op init).Reachable s) :
    ∀ t, I t (s.thread t) := by
  apply System.invariant hinit _ h
  intro s e s' hs hstep
  exact Step.then hstep hop hs

theorem reachable_owned (hd : Disciplined op) (hinit : ∀ s, init s → Owned op s)
    (h : (system op init).Reachable s) : Owned op s := by
  apply System.invariant hinit _ h
  intro s e s' hs hstep
  exact Step.owned hd hstep hs

/-! ### Conservation -/

/-- The operation does not change `f` of the data plus `w` of the local state. -/
def Op.Keeps {L : Type*} (f : D → ℤ) (w : L → ℤ) (l : L) (d : D) : Op D κ W A L → Prop
  | .call k => ∀ x a x' l', k x a = some (x', l') → w l' = w l
  | .lock l' => w l' = w l
  | .critical k => f (k d).data + w (k d).next = f d + w l
  | .exit => True

/-- The data and the local states in one sum. -/
def value (f : D → ℤ) (w : ∀ t, L t → ℤ) (s : Host D κ W L) : ℤ :=
  f s.data + ∑ t, w t (s.thread t)

omit [DecidableEq κ] in
theorem sum_thread (w : ∀ t, L t → ℤ) (s : Host D κ W L) (t : T) (l : L t) :
    ∑ u, w u ((s.goto t l).thread u) = ∑ u, w u (s.thread u) + (w t l - w t (s.thread t)) := by
  rw [← Finset.add_sum_erase _ _ (Finset.mem_univ t),
    ← Finset.add_sum_erase _ (fun u => w u (s.thread u)) (Finset.mem_univ t),
    Host.goto_thread_self]
  have hrest : ∑ u ∈ Finset.univ.erase t, w u ((s.goto t l).thread u) =
      ∑ u ∈ Finset.univ.erase t, w u (s.thread u) := by
    apply Finset.sum_congr rfl
    intro u hu
    rw [Host.goto_thread_ne _ _ (Finset.ne_of_mem_erase hu)]
  omega

/-- **Conservation rule**: what no operation changes, no step changes. -/
theorem Step.value_eq {f : D → ℤ} {w : ∀ t, L t → ℤ} (h : Step op s e s')
    (hop : ∀ t, (op t (s.thread t)).Keeps f (w t) (s.thread t) s.data) :
    value f w s' = value f w s := by
  unfold value
  cases h with
  | @call t a k x l hc hk =>
    have hkeep := hop t
    rw [hc] at hkeep
    have hsame := hkeep _ _ _ _ hk
    have hsum := sum_thread w { s with world := x } t l
    rw [hsum]
    simp only [Host.goto_data]
    omega
  | @lock t l hc _ _ =>
    have hkeep := hop t
    rw [hc] at hkeep
    have hsame : w t l = w t (s.thread t) := hkeep
    have hsum := sum_thread w { s with owner := some t } t l
    rw [hsum]
    simp only [Host.goto_data]
    omega
  | @leave t picks k z hc _ =>
    have hkeep := hop t
    rw [hc] at hkeep
    have hsame : f (k s.data).data + w t (k s.data).next = f s.data + w t (s.thread t) := hkeep
    have hsum := sum_thread w
      { s with
        data := (k s.data).data
        owner := none
        asleep := Function.update z t (k s.data).sleep } t (k s.data).next
    rw [hsum]
    simp only [Host.goto_data]
    omega
  | spurious => rfl

/-- A sum that no operation changes where the local invariant `I` holds is what
    it was at the start. -/
theorem conserved {I : ∀ t, L t → Prop} {f : D → ℤ} {w : ∀ t, L t → ℤ}
    (hI : ∀ s, (system op init).Reachable s → ∀ t, I t (s.thread t))
    (hop : ∀ t l d, I t l → (op t l).Keeps f (w t) l d)
    (h : (system op init).Reachable s) : ∃ s₀, init s₀ ∧ value f w s = value f w s₀ := by
  induction h with
  | @init s hs => exact ⟨s, hs, rfl⟩
  | @step s e s' hreach hstep ih =>
    obtain ⟨s₀, h₀, hvalue⟩ := ih
    refine ⟨s₀, h₀, ?_⟩
    rw [← hvalue]
    exact Step.value_eq hstep fun t => hop t _ _ (hI s hreach t)

/-! ### Signalled threads -/

/-- A signal with a sleeper wakes one. -/
theorem rouse_wakes {ws : List (Wake κ)} {picks : List T} {z z' : T → Option κ} {c : κ} {t : T}
    (h : rouse (.signal c :: ws) picks z = some z') (ht : z t = some c) :
    ∃ p, z p = some c ∧ z' p = none := by
  have hsome : ¬ ∀ u, z u ≠ some c := fun hall => hall t ht
  cases picks with
  | nil =>
    rw [rouse, if_neg hsome] at h
    cases h
  | cons p picks =>
    rw [rouse, if_neg hsome] at h
    split at h
    · next hp =>
      refine ⟨p, hp, ?_⟩
      cases hz : z' p with
      | none => rfl
      | some c' =>
        have hbefore := rouse_mono h hz
        rw [Function.update_self] at hbefore
        cases hbefore
    · cases h

/-- Who is signalled after an event: a sleeper that the event wakes, other than
    without a signal, until it has left its next critical section. -/
def notice (s s' : Host D κ W L) (e : Event T A) (signalled : T → Bool) : T → Bool :=
  match e with
  | .leave t _ => fun u =>
      if u = t then false else signalled u || ((s.asleep u).isSome && (s'.asleep u).isNone)
  | _ => signalled

/-- The threads, and beside them an observer that keeps who is signalled. -/
def watched (op : ∀ t, L t → Op D κ W A (L t)) (init : Host D κ W L → Prop) :
    System (Host D κ W L × (T → Bool)) (Event T A) where
  init x := init x.1 ∧ x.2 = fun _ => false
  step x e x' := Step op x.1 e x'.1 ∧ x'.2 = notice x.1 x'.1 e x.2

theorem watched_fst {x : Host D κ W L × (T → Bool)} (h : (watched op init).Reachable x) :
    (system op init).Reachable x.1 := by
  induction h with
  | init hx => exact .init hx.1
  | step _ hstep ih => exact .step ih hstep.1

/-- The observer does not disturb: every reachable state can be watched. -/
theorem exists_watched (h : (system op init).Reachable s) :
    ∃ signalled, (watched op init).Reachable (s, signalled) := by
  induction h with
  | init hs => exact ⟨_, .init ⟨hs, rfl⟩⟩
  | @step s e s' _ hstep ih =>
    obtain ⟨signalled, hx⟩ := ih
    exact ⟨notice s s' e signalled, .step hx ⟨hstep, rfl⟩⟩

end rules

end Monitor
