import OsLessons.Lib.Transition
import OsLessons.Lib.Census

/-! # Threads over a monitor

  Threads that share data under one mutex, with condition variables in Mesa
  semantics: a signalled thread competes for the mutex again, and a sleeper
  may also wake up without a signal.

  A thread is a local state and a program that says what it does next (`Op`).
  A critical section is one piece of code from the moment the mutex is held
  to the `unlock` or the `cond_wait` that gives it up (`Leave`). `next`
  performs an event; `Step` lists what an event can do.

  - `Step.owned`: mutual exclusion.
  - `stuck_of_quiet`: where nobody can move, everybody has ended or sleeps.
-/

namespace Monitor

open Lts

/-! ### Wake-ups -/

/-- What a critical section does for the threads that sleep. -/
inductive Wake (κ : Type*) where
  /-- `pthread_cond_signal`: one of the sleepers, if there is any -/
  | signal (c : κ)
  /-- `pthread_cond_broadcast`: all of them -/
  | broadcast (c : κ)

theorem of_update_none {κ T : Type*} [DecidableEq T] {z : T → Option κ} {p t : T} {c : κ}
    (h : Function.update z p none t = some c) : z t = some c := by
  rcases eq_or_ne t p with rfl | hne
  · simp at h
  · rwa [Function.update_of_ne hne] at h

section wakeups
variable {κ T : Type*} [DecidableEq κ] [DecidableEq T] [Fintype T]

/-- Perform wake-ups in order. `asleep t = some c` says that `t` sleeps on `c`
    and nobody has woken it; `picks` are the threads that the signals find. -/
def rouse : List (Wake κ) → List T → (T → Option κ) → Option (T → Option κ)
  | [], [], asleep => some asleep
  | [], _ :: _, _ => none
  | .broadcast c :: ws, picks, asleep =>
      rouse ws picks fun t => if asleep t = some c then none else asleep t
  | .signal c :: ws, picks, asleep =>
      -- a signal without a sleeper is lost
      if ∀ t, asleep t ≠ some c then rouse ws picks asleep
      else match picks with
        | [] => none
        | p :: picks =>
            if asleep p = some c then rouse ws picks (Function.update asleep p none) else none

/-- A wake-up puts nobody to sleep. -/
theorem rouse_mono {ws : List (Wake κ)} {picks : List T} {z z' : T → Option κ}
    (h : rouse ws picks z = some z') {t : T} {c : κ} (ht : z' t = some c) : z t = some c := by
  fun_induction rouse ws picks z with
  | case1 z => cases h; exact ht
  | case2 => cases h
  | case3 c' ws picks z ih =>
    have hz : (if z t = some c' then none else z t) = some c := ih h
    split at hz
    · cases hz
    · exact hz
  | case4 c' ws picks z _ ih => exact ih h
  | case5 => cases h
  | case6 c' ws z _ p picks _ ih => exact of_update_none (ih h)
  | case7 => cases h

/-- After a broadcast nobody sleeps on the variable. -/
theorem rouse_broadcast {ws : List (Wake κ)} {picks : List T} {z z' : T → Option κ} {c : κ}
    (h : rouse ws picks z = some z') (hc : .broadcast c ∈ ws) (t : T) : z' t ≠ some c := by
  intro ht
  fun_induction rouse ws picks z with
  | case1 => cases hc
  | case2 => cases hc
  | case3 c' ws picks z ih =>
    rcases List.mem_cons.mp hc with heq | hmem
    · cases heq
      have hz : (if z t = some c then none else z t) = some c := rouse_mono h ht
      split at hz
      · cases hz
      · contradiction
    · exact ih h hmem
  | case4 c' ws picks z _ ih => exact ih h ((List.mem_cons.mp hc).resolve_left (by simp))
  | case5 => cases h
  | case6 c' ws z _ p picks _ ih => exact ih h ((List.mem_cons.mp hc).resolve_left (by simp))
  | case7 => cases h

/-- A signal finds the only thread that can sleep on the variable. -/
theorem rouse_signal {ws : List (Wake κ)} {picks : List T} {z z' : T → Option κ} {c : κ}
    {t : T} (h : rouse ws picks z = some z') (hc : .signal c ∈ ws)
    (honly : ∀ u, z u = some c → u = t) : z' t ≠ some c := by
  intro ht
  fun_induction rouse ws picks z with
  | case1 => cases hc
  | case2 => cases hc
  | case3 c' ws picks z ih =>
    apply ih h ((List.mem_cons.mp hc).resolve_left (by simp))
    intro u hu
    have hz : (if z u = some c' then none else z u) = some c := hu
    split at hz
    · cases hz
    · exact honly u hz
  | case4 c' ws picks z hnone ih =>
    rcases List.mem_cons.mp hc with heq | hmem
    · cases heq
      exact hnone t (rouse_mono h ht)
    · exact ih h hmem honly
  | case5 => cases h
  | case6 c' ws z _ p picks hp ih =>
    rcases List.mem_cons.mp hc with heq | hmem
    · cases heq
      obtain rfl := honly p hp
      have hz := rouse_mono h ht
      rw [Function.update_self] at hz
      cases hz
    · apply ih h hmem
      intro u hu
      exact honly u (of_update_none hu)
  | case7 => cases h

/-- Wake-ups are always possible, whoever the signals find. -/
theorem exists_rouse (ws : List (Wake κ)) (z : T → Option κ) :
    ∃ picks z', rouse ws picks z = some z' := by
  induction ws generalizing z with
  | nil => exact ⟨[], z, rfl⟩
  | cons w ws ih =>
    cases w with
    | broadcast c =>
      obtain ⟨picks, z', h⟩ := ih fun t => if z t = some c then none else z t
      exact ⟨picks, z', by rw [rouse, h]⟩
    | signal c =>
      by_cases hnone : ∀ t, z t ≠ some c
      · obtain ⟨picks, z', h⟩ := ih z
        exact ⟨picks, z', by cases picks <;> rw [rouse, if_pos hnone, h]⟩
      · simp only [ne_eq, not_forall, not_not] at hnone
        obtain ⟨p, hp⟩ := hnone
        obtain ⟨picks, z', h⟩ := ih (Function.update z p none)
        refine ⟨p :: picks, z', ?_⟩
        rw [rouse, if_neg (fun hall => hall p hp), if_pos hp, h]

end wakeups

/-! ### Threads -/

/-- How a thread gives up the mutex: the shared data as it leaves them, the
    wake-ups on the way, and the condition variable it waits on (`none`: it
    unlocks). It goes on in `next`; after a wait that is where it locks again. -/
structure Leave (D κ L : Type*) where
  data : D
  wakes : List (Wake κ) := []
  sleep : Option κ := none
  next : L

/-- What a thread does next. `W` is the world outside of the monitor, `A` are
    the answers it can give to a call. -/
inductive Op (D κ W A L : Type*) where
  /-- a system call or own work, with the mutex not held -/
  | call (k : W → A → Option (W × L))
  | lock (k : L)
  | critical (k : D → Leave D κ L)
  | exit

/-- One event of a run. -/
inductive Event (T A : Type*) where
  | call (t : T) (a : A)
  | lock (t : T)
  /-- `t` runs its critical section; its signals find `picks` -/
  | leave (t : T) (picks : List T)
  /-- `t` wakes up without a signal -/
  | spurious (t : T)

/-- The shared data, the thread that holds the mutex, the threads that sleep
    unsignalled, the local states, and the world. -/
structure Host (D κ W : Type*) {T : Type*} (L : T → Type*) where
  data : D
  owner : Option T
  asleep : T → Option κ
  thread : ∀ t, L t
  world : W

section threads
variable {D κ W A T : Type*} {L : T → Type*}

section goto
variable [DecidableEq T]

/-- Set the local state of thread `t`. -/
def Host.goto (s : Host D κ W L) (t : T) (l : L t) : Host D κ W L :=
  { s with thread := Function.update s.thread t l }

@[simp] theorem Host.goto_data (s : Host D κ W L) (t : T) (l : L t) :
    (s.goto t l).data = s.data := rfl
@[simp] theorem Host.goto_owner (s : Host D κ W L) (t : T) (l : L t) :
    (s.goto t l).owner = s.owner := rfl
@[simp] theorem Host.goto_asleep (s : Host D κ W L) (t : T) (l : L t) :
    (s.goto t l).asleep = s.asleep := rfl
@[simp] theorem Host.goto_world (s : Host D κ W L) (t : T) (l : L t) :
    (s.goto t l).world = s.world := rfl
@[simp] theorem Host.goto_thread_self (s : Host D κ W L) (t : T) (l : L t) :
    (s.goto t l).thread t = l := Function.update_self ..
theorem Host.goto_thread_ne (s : Host D κ W L) {t u : T} (l : L t) (h : u ≠ t) :
    (s.goto t l).thread u = s.thread u := Function.update_of_ne h ..

end goto

/-- The next piece of code is a critical section. -/
def Op.Inside {L : Type*} : Op D κ W A L → Prop
  | .critical _ => True
  | _ => False

@[simp] theorem Op.inside_call {L : Type*} (k : W → A → Option (W × L)) :
    (Op.call k : Op D κ W A L).Inside ↔ False := Iff.rfl
@[simp] theorem Op.inside_lock {L : Type*} (l : L) :
    (Op.lock l : Op D κ W A L).Inside ↔ False := Iff.rfl
@[simp] theorem Op.inside_critical {L : Type*} (k : D → Leave D κ L) :
    (Op.critical k : Op D κ W A L).Inside ↔ True := Iff.rfl
@[simp] theorem Op.inside_exit {L : Type*} : (Op.exit : Op D κ W A L).Inside ↔ False := Iff.rfl

variable [DecidableEq κ] [DecidableEq T] [Fintype T]

/-- Perform an event; `none` if it is not possible. -/
def next (op : ∀ t, L t → Op D κ W A (L t)) (s : Host D κ W L) :
    Event T A → Option (Host D κ W L)
  | .call t a =>
      match op t (s.thread t) with
      | .call k => (k s.world a).map fun r => { s with world := r.1 }.goto t r.2
      | _ => none
  | .lock t =>
      match op t (s.thread t) with
      | .lock l =>
          if s.owner.isNone ∧ s.asleep t = none then some ({ s with owner := some t }.goto t l)
          else none
      | _ => none
  | .leave t picks =>
      match op t (s.thread t) with
      | .critical k =>
          let l := k s.data
          (rouse l.wakes picks s.asleep).map fun z =>
            { s with data := l.data, owner := none, asleep := Function.update z t l.sleep }.goto t
              l.next
      | _ => none
  | .spurious t =>
      if s.asleep t = none then none
      else some { s with asleep := Function.update s.asleep t none }

/-- What an event can do. -/
inductive Step (op : ∀ t, L t → Op D κ W A (L t)) (s : Host D κ W L) :
    Event T A → Host D κ W L → Prop where
  | call {t a k w l} : op t (s.thread t) = .call k → k s.world a = some (w, l) →
      Step op s (.call t a) ({ s with world := w }.goto t l)
  | lock {t l} : op t (s.thread t) = .lock l → s.owner = none → s.asleep t = none →
      Step op s (.lock t) ({ s with owner := some t }.goto t l)
  | leave {t picks k z} : op t (s.thread t) = .critical k →
      rouse (k s.data).wakes picks s.asleep = some z →
      Step op s (.leave t picks)
        ({ s with
            data := (k s.data).data
            owner := none
            asleep := Function.update z t (k s.data).sleep }.goto t (k s.data).next)
  | spurious {t} : s.asleep t ≠ none →
      Step op s (.spurious t) { s with asleep := Function.update s.asleep t none }

variable {op : ∀ t, L t → Op D κ W A (L t)} {s s' : Host D κ W L} {e : Event T A}

theorem step_of_next (h : next op s e = some s') : Step op s e s' := by
  cases e with
  | call t a =>
    simp only [next] at h
    split at h
    · next k hop =>
      obtain ⟨⟨w, l⟩, hk, heq⟩ := Option.map_eq_some_iff.mp h
      cases heq
      exact .call hop hk
    · cases h
  | lock t =>
    simp only [next, Option.isNone_iff_eq_none] at h
    split at h
    · next l hop =>
      split at h
      · next hfree =>
        cases h
        exact .lock hop hfree.1 hfree.2
      · cases h
    · cases h
  | leave t picks =>
    simp only [next] at h
    split at h
    · next k hop =>
      obtain ⟨z, hz, heq⟩ := Option.map_eq_some_iff.mp h
      cases heq
      exact .leave hop hz
    · cases h
  | spurious t =>
    simp only [next] at h
    split at h
    · cases h
    · next hz =>
      cases h
      exact .spurious hz

/-! ### Mutual exclusion -/

/-- Critical sections come after a `lock` and only there, and who waits on a
    condition variable locks again. -/
structure Disciplined (op : ∀ t, L t → Op D κ W A (L t)) : Prop where
  call : ∀ t l k w a w' l', op t l = .call k → k w a = some (w', l') → ¬ (op t l').Inside
  lock : ∀ t l l', op t l = .lock l' → (op t l').Inside
  leave : ∀ t l k d, op t l = .critical k → ¬ (op t (k d).next).Inside
  sleep : ∀ t l k d c, op t l = .critical k → (k d).sleep = some c →
    ∃ l', op t (k d).next = .lock l'

/-- The mutex belongs to the thread inside a critical section; who sleeps is
    about to lock. -/
structure Owned (op : ∀ t, L t → Op D κ W A (L t)) (s : Host D κ W L) : Prop where
  inside : ∀ t, (op t (s.thread t)).Inside ↔ s.owner = some t
  asleep : ∀ t c, s.asleep t = some c → ∃ l, op t (s.thread t) = .lock l

/-- **Mutual exclusion** is preserved by every step of a disciplined program. -/
theorem Step.owned (hd : Disciplined op) (h : Step op s e s') (hs : Owned op s) :
    Owned op s' := by
  cases h with
  | @call t a k w l hop hk =>
    have hout : ¬ s.owner = some t := by
      rw [← hs.inside t, hop]
      exact id
    constructor
    · intro u
      rcases eq_or_ne u t with rfl | hne
      · rw [Host.goto_thread_self]
        exact iff_of_false (hd.call _ _ _ _ _ _ _ hop hk) hout
      · rw [Host.goto_thread_ne _ _ hne]
        exact hs.inside u
    · intro u c hu
      rcases eq_or_ne u t with rfl | hne
      · obtain ⟨l', hl'⟩ := hs.asleep u c hu
        rw [hop] at hl'
        cases hl'
      · rw [Host.goto_thread_ne _ _ hne]
        exact hs.asleep u c hu
  -- the mutex was free, so nobody else was inside
  | @lock t l hop hfree hawake =>
    constructor
    · intro u
      rcases eq_or_ne u t with rfl | hne
      · rw [Host.goto_thread_self]
        exact iff_of_true (hd.lock _ _ _ hop) rfl
      · rw [Host.goto_thread_ne _ _ hne]
        have hu := hs.inside u
        simp only [hfree, reduceCtorEq, iff_false] at hu
        refine iff_of_false hu ?_
        simpa using hne.symm
    · intro u c hu
      rcases eq_or_ne u t with rfl | hne
      · exact absurd hu (by simp [hawake])
      · rw [Host.goto_thread_ne _ _ hne]
        exact hs.asleep u c hu
  -- the mutex is free again, and only `t` had been inside
  | @leave t picks k z hop hz =>
    have howner : s.owner = some t := (hs.inside t).mp (by rw [hop]; trivial)
    constructor
    · intro u
      rcases eq_or_ne u t with rfl | hne
      · rw [Host.goto_thread_self]
        exact iff_of_false (hd.leave _ _ _ _ hop) (by simp)
      · rw [Host.goto_thread_ne _ _ hne]
        refine iff_of_false ?_ (by simp)
        rw [hs.inside u, howner]
        simpa using hne.symm
    · intro u c hu
      rcases eq_or_ne u t with rfl | hne
      · rw [Host.goto_thread_self]
        simp only [Host.goto_asleep, Function.update_self] at hu
        exact hd.sleep _ _ _ _ _ hop hu
      · rw [Host.goto_thread_ne _ _ hne]
        simp only [Host.goto_asleep, Function.update_of_ne hne] at hu
        exact hs.asleep u c (rouse_mono hz hu)
  | @spurious t ht =>
    constructor
    · exact hs.inside
    · intro u c hu
      exact hs.asleep u c (of_update_none hu)

/-! ### Progress -/

/-- The events that get a thread ahead: neither a spurious wake-up nor a call
    with an `idle` answer, after which it is repeated. -/
def Event.effective (idle : A → Bool) : Event T A → Bool
  | .call _ a => !idle a
  | .lock _ | .leave _ _ => true
  | .spurious _ => false

def Event.isSpurious : Event T A → Bool
  | .spurious _ => true
  | _ => false

/-- Where no effective event is possible and the world can answer every call
    effectively, every thread has ended or sleeps unsignalled. -/
theorem stuck_of_quiet {idle : A → Bool} (hs : Owned op s)
    (hcall : ∀ t k, op t (s.thread t) = .call k → ∃ a, idle a = false ∧ (k s.world a).isSome)
    (hquiet : ∀ e, Event.effective idle e = true → next op s e = none) (t : T) :
    op t (s.thread t) = .exit ∨ ∃ c, s.asleep t = some c := by
  -- a thread inside its section could always finish it
  have hout : ∀ u, ¬ (op u (s.thread u)).Inside := by
    intro u hu
    cases hop : op u (s.thread u) with
    | critical k =>
      obtain ⟨picks, z, hz⟩ := exists_rouse (k s.data).wakes s.asleep
      have hnone := hquiet (.leave u picks) rfl
      simp [next, hop, hz] at hnone
    | _ =>
      rw [hop] at hu
      exact hu
  have hfree : s.owner = none := by
    cases ho : s.owner with
    | none => rfl
    | some u => exact absurd ((hs.inside u).mpr ho) (hout u)
  cases hop : op t (s.thread t) with
  | call k =>
    obtain ⟨a, hidle, ha⟩ := hcall t k hop
    have hnone := hquiet (.call t a) (by simp [Event.effective, hidle])
    simp only [next, hop, Option.map_eq_none_iff] at hnone
    simp [hnone] at ha
  | lock l =>
    right
    cases hz : s.asleep t with
    | some c => exact ⟨c, rfl⟩
    | none =>
      have hnone := hquiet (.lock t) rfl
      simp [next, hop, hfree, hz] at hnone
  | critical k =>
    apply absurd _ (hout t)
    rw [hop]
    trivial
  | exit => exact .inl rfl

/-! ### Termination -/

/-- How many threads a wake-up can wake, out of `n`. -/
def Wake.most (n : ℕ) : Wake κ → ℕ
  | .signal _ => 1
  | .broadcast _ => n

/-- The threads that do not sleep. -/
def awake (z : T → Option κ) : ℕ := (Finset.univ.filter fun t => z t = none).card

omit [DecidableEq κ] [DecidableEq T] in
theorem awake_le (z : T → Option κ) : awake z ≤ Fintype.card T := Finset.card_filter_le _ _

omit [DecidableEq κ] in
theorem awake_update_none (z : T → Option κ) (p : T) :
    awake (Function.update z p none) ≤ awake z + 1 := by
  have hsub : (Finset.univ.filter fun t => Function.update z p none t = none) ⊆
      insert p (Finset.univ.filter fun t => z t = none) := by
    intro t ht
    rcases eq_or_ne t p with rfl | hne
    · exact Finset.mem_insert_self _ _
    · rw [Finset.mem_filter, Function.update_of_ne hne] at ht
      exact Finset.mem_insert_of_mem (Finset.mem_filter.mpr ht)
  exact (Finset.card_le_card hsub).trans (Finset.card_insert_le _ _)

omit [DecidableEq κ] in
theorem awake_update_some {z : T → Option κ} {p : T} (hp : z p = none) (c : κ) :
    awake (Function.update z p (some c)) + 1 = awake z := by
  have herase : (Finset.univ.filter fun t => Function.update z p (some c) t = none) =
      (Finset.univ.filter fun t => z t = none).erase p := by
    ext t
    rcases eq_or_ne t p with rfl | hne
    · simp
    · simp [hne]
  unfold awake
  rw [herase]
  exact Finset.card_erase_add_one (by simp [hp])

theorem awake_rouse {ws : List (Wake κ)} {picks : List T} {z z' : T → Option κ}
    (h : rouse ws picks z = some z') :
    awake z' ≤ awake z + (ws.map (Wake.most (Fintype.card T))).sum := by
  fun_induction rouse ws picks z with
  | case1 z =>
    cases h
    exact Nat.le_add_right _ _
  | case2 => cases h
  | case3 c' ws picks z ih =>
    have := ih h
    have := awake_le fun t => if z t = some c' then none else z t
    simp only [List.map_cons, List.sum_cons, Wake.most]
    omega
  | case4 c' ws picks z _ ih =>
    have := ih h
    simp only [List.map_cons, List.sum_cons]
    omega
  | case5 => cases h
  | case6 c' ws z _ p picks _ ih =>
    have := ih h
    have := awake_update_none z p
    simp only [List.map_cons, List.sum_cons, Wake.most]
    omega
  | case7 => cases h

/-- The thread pays for what it does next, out of a weight `w` of its local
    state, `d` of the shared data and `v` of the world. To wake a thread costs
    two, since the other may lock, find nothing and sleep again; a sleeper
    gives them back. -/
def Op.Pays (n : ℕ) (idle : A → Bool) (d : D → ℕ) (v : W → ℕ) {L : Type*} (w : L → ℕ) (l : L) :
    Op D κ W A L → Prop
  | .call k => ∀ x a x' l', k x a = some (x', l') →
      w l' + v x' + (if idle a then 0 else 1) ≤ w l + v x
  | .lock l' => w l' < w l
  | .critical k => ∀ x, d (k x).data + w (k x).next + 2 * ((k x).wakes.map (Wake.most n)).sum <
      d x + w l + if (k x).sleep.isSome then 2 else 0
  | .exit => True

/-- As `Pays`, for a critical section that finds the data `x`. -/
def Op.PaysAt (n : ℕ) (idle : A → Bool) (d : D → ℕ) (v : W → ℕ) {L : Type*} (w : L → ℕ) (l : L)
    (x : D) : Op D κ W A L → Prop
  | .critical k => d (k x).data + w (k x).next + 2 * ((k x).wakes.map (Wake.most n)).sum <
      d x + w l + if (k x).sleep.isSome then 2 else 0
  | op => op.Pays n idle d v w l

omit [DecidableEq κ] in
theorem Op.Pays.paysAt {n : ℕ} {idle : A → Bool} {d : D → ℕ} {v : W → ℕ} {L : Type*} {w : L → ℕ}
    {l : L} {op : Op D κ W A L} (h : op.Pays n idle d v w l) (x : D) :
    op.PaysAt n idle d v w l x := by
  cases op with
  | critical k => exact h x
  | call | lock | exit => exact h

/-- Weight of a state: data, world, local states, and two for every thread
    that does not sleep. -/
def weight (d : D → ℕ) (v : W → ℕ) (w : ∀ t, L t → ℕ) (s : Host D κ W L) : ℕ :=
  d s.data + v s.world + ∑ t, w t (s.thread t) + 2 * awake s.asleep

/-- If every thread pays, an effective event lowers the weight, an idle answer
    does not raise it, and a spurious wake-up raises it by two at most. -/
theorem Step.weight_le {idle : A → Bool} {d : D → ℕ} {v : W → ℕ} {w : ∀ t, L t → ℕ}
    (hpays : ∀ t, (op t (s.thread t)).PaysAt (Fintype.card T) idle d v (w t) (s.thread t) s.data)
    (hs : Owned op s) (h : Step op s e s') :
    weight d v w s' + (if e.effective idle then 1 else 0) ≤
      weight d v w s + if e.isSpurious then 2 else 0 := by
  unfold weight
  cases h with
  | @call t a k x l hop hk =>
    have hpay := hpays t
    rw [hop] at hpay
    have hcall := hpay _ _ _ _ hk
    have hsum := Census.sum_update w (Finset.mem_univ t) s.thread l
    simp only [Host.goto, Event.effective, Event.isSpurious, Bool.false_eq_true, ↓reduceIte]
    rcases Bool.eq_false_or_eq_true (idle a) with hi | hi
    · simp only [hi, Bool.not_true, Bool.false_eq_true, ↓reduceIte] at hcall ⊢
      omega
    · simp only [hi, Bool.not_false, Bool.false_eq_true, ↓reduceIte] at hcall ⊢
      omega
  | @lock t l hop _ _ =>
    have hpay := hpays t
    rw [hop] at hpay
    have hlock : w t l < w t (s.thread t) := hpay
    have hsum := Census.sum_update w (Finset.mem_univ t) s.thread l
    simp only [Host.goto, Event.effective, Event.isSpurious, Bool.false_eq_true, ↓reduceIte]
    omega
  | @leave t picks k z hop hz =>
    have hpay := hpays t
    rw [hop] at hpay
    have hleave : d (k s.data).data + w t (k s.data).next +
        2 * ((k s.data).wakes.map (Wake.most (Fintype.card T))).sum <
        d s.data + w t (s.thread t) + if (k s.data).sleep.isSome then 2 else 0 := hpay
    have hsum := Census.sum_update w (Finset.mem_univ t) s.thread (k s.data).next
    have hrouse := awake_rouse hz
    -- who runs its section does not sleep
    have hself : z t = none := by
      cases hzt : z t with
      | none => rfl
      | some c =>
        obtain ⟨l, hl⟩ := hs.asleep t c (rouse_mono hz hzt)
        rw [hop] at hl
        cases hl
    simp only [Host.goto, Event.effective, Event.isSpurious, Bool.false_eq_true, ↓reduceIte]
    cases hsleep : (k s.data).sleep with
    | none =>
      rw [hsleep] at hleave
      have hsame : Function.update z t none = z := by rw [← hself, Function.update_eq_self]
      simp only [hsame, Option.isSome_none, Bool.false_eq_true, ↓reduceIte] at hleave ⊢
      omega
    | some c =>
      rw [hsleep] at hleave
      have hless := awake_update_some hself c
      simp only [Option.isSome_some, ↓reduceIte] at hleave ⊢
      omega
  | @spurious t _ =>
    have hmore := awake_update_none s.asleep t
    simp only [Event.effective, Event.isSpurious, Bool.false_eq_true, ↓reduceIte]
    omega

/-! ### Runs -/

/-- The threads as a transition system. -/
def system (op : ∀ t, L t → Op D κ W A (L t)) (init : Host D κ W L → Prop) :
    System (Host D κ W L) (Event T A) where
  init := init
  step := Step op

variable {init : Host D κ W L → Prop}

/-- Perform events in order; `none` if one of them is not possible. -/
def replay (op : ∀ t, L t → Op D κ W A (L t)) :
    Host D κ W L → List (Event T A) → Option (Host D κ W L) :=
  System.follow (next op)

theorem Run.of_replay {es : List (Event T A)} (h : replay op s es = some s') :
    (system op init).Run s es s' :=
  System.Run.of_follow (fun _ _ _ => step_of_next) h

/-- **Termination**: the effective events of a run are bounded by the weight
    at its start and the number of spurious wake-ups, if every thread pays
    where `I` holds. -/
theorem Run.effective_le_of {I : Host D κ W L → Prop} {es : List (Event T A)} {idle : A → Bool}
    {d : D → ℕ} {v : W → ℕ} {w : ∀ t, L t → ℕ} (hd : Disciplined op)
    (hI : ∀ s e s', I s → (system op init).step s e s' → I s')
    (hpays : ∀ s, I s → ∀ t,
      (op t (s.thread t)).PaysAt (Fintype.card T) idle d v (w t) (s.thread t) s.data)
    (hrun : (system op init).Run s es s') (hs : Owned op s) (hinv : I s) :
    weight d v w s' + es.countP (Event.effective idle) ≤
      weight d v w s + 2 * es.countP Event.isSpurious := by
  induction hrun with
  | nil => simp
  | @cons s s₁ s₂ e es hstep _ ih =>
    have hrest := ih (Step.owned hd hstep hs) (hI _ _ _ hinv hstep)
    have hone := Step.weight_le (hpays s hinv) hs hstep
    simp only [List.countP_cons]
    split_ifs at hone ⊢ <;> omega

/-- The same for threads that pay whatever they find. -/
theorem Run.effective_le {es : List (Event T A)} {idle : A → Bool} {d : D → ℕ} {v : W → ℕ}
    {w : ∀ t, L t → ℕ} (hd : Disciplined op)
    (hpays : ∀ t l, (op t l).Pays (Fintype.card T) idle d v (w t) l)
    (hrun : (system op init).Run s es s') (hs : Owned op s) :
    weight d v w s' + es.countP (Event.effective idle) ≤
      weight d v w s + 2 * es.countP Event.isSpurious :=
  Run.effective_le_of (I := fun _ => True) hd (fun _ _ _ _ _ => trivial)
    (fun s _ t => (hpays t (s.thread t)).paysAt s.data) hrun hs trivial

end threads

end Monitor
