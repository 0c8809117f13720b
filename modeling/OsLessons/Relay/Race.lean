import OsLessons.Lib.Transition

/-! # The relay race

  What a relay race is, without queues. The runners `1, …, n` arrive in any
  order, the judge hears of them in the order they arrived, and then sends the
  baton on its way: to runner 1, from each runner to the next, and home.

  Every run of the race is orderly (`orderly`). The two programs of the lesson
  are shown to be such races.
-/

namespace Relay

open Lts

/-! ### The race -/

/-- Where the baton is. -/
inductive Leg where
  /-- the judge has it -/
  | ready
  /-- on its way to runner `i` -/
  | flying (i : ℕ)
  /-- in the hands of runner `i` -/
  | held (i : ℕ)
  /-- on its way back to the judge -/
  | home
  | finished
  deriving DecidableEq

structure Race where
  /-- the runners that have arrived, in order -/
  sent : List ℕ
  /-- of how many of them the judge has heard -/
  heard : ℕ
  leg : Leg

/-- What happens in a race. -/
inductive Happening where
  | arrive (i : ℕ)
  /-- the judge hears that `i` has arrived -/
  | hear (i : ℕ)
  | start
  /-- runner `i` receives the baton -/
  | take (i : ℕ)
  /-- runner `i` sends the baton on -/
  | pass (i : ℕ)
  /-- the judge hears the finish from runner `i` -/
  | finish (i : ℕ)
  deriving DecidableEq

/-- The race of `n` runners. -/
def race (n : ℕ) : System Race Happening where
  init r := r = ⟨[], 0, .ready⟩
  step r h r' :=
    match h with
    | .arrive i =>
        1 ≤ i ∧ i ≤ n ∧ i ∉ r.sent ∧ r' = { r with sent := r.sent ++ [i] }
    | .hear i => r.sent[r.heard]? = some i ∧ r' = { r with heard := r.heard + 1 }
    | .start => r.heard = n ∧ r.leg = .ready ∧ r' = { r with leg := .flying 1 }
    | .take i => r.leg = .flying i ∧ r' = { r with leg := .held i }
    | .pass i =>
        r.leg = .held i ∧ r' = { r with leg := if i < n then .flying (i + 1) else .home }
    | .finish i => i = n ∧ r.leg = .home ∧ r' = { r with leg := .finished }

/-! ### The invariant -/

/-- The baton is on its way to a runner. -/
def Leg.isFlying : Leg → Bool
  | .flying _ => true
  | _ => false

/-- The runner that has the baton, or is to get it. -/
def Leg.runner : Leg → Option ℕ
  | .flying i | .held i => some i
  | _ => none

structure Good (n : ℕ) (r : Race) : Prop where
  nodup : r.sent.Nodup
  range : ∀ i ∈ r.sent, 1 ≤ i ∧ i ≤ n
  heard_le : r.heard ≤ r.sent.length
  /-- the baton leaves the judge after the last arrival -/
  started : r.leg ≠ .ready → r.heard = n
  runner : ∀ i, r.leg.runner = some i → 1 ≤ i ∧ i ≤ n

variable {n : ℕ} {r r' : Race} {h : Happening}

/-- Distinct runners are at most `n`. -/
theorem length_le {l : List ℕ} (hnodup : l.Nodup) (hrange : ∀ i ∈ l, 1 ≤ i ∧ i ≤ n) :
    l.length ≤ n := by
  rw [← List.toFinset_card_of_nodup hnodup]
  calc l.toFinset.card ≤ (Finset.Icc 1 n).card := by
        apply Finset.card_le_card
        intro i hi
        rw [Finset.mem_Icc]
        exact hrange i (List.mem_toFinset.mp hi)
    _ = n := by simp

theorem Good.length_le (hg : Good n r) : r.sent.length ≤ n :=
  Relay.length_le hg.nodup hg.range

/-- Once the judge has heard of `n` arrivals, everybody has arrived. -/
theorem Good.all_sent (hg : Good n r) (hheard : r.heard = n) {i : ℕ} (hi : 1 ≤ i ∧ i ≤ n) :
    i ∈ r.sent := by
  have hlength := hg.length_le
  have hle := hg.heard_le
  by_contra hmem
  have hmore : (i :: r.sent).length ≤ n := by
    apply Relay.length_le (List.nodup_cons.mpr ⟨hmem, hg.nodup⟩)
    intro j hj
    rcases List.mem_cons.mp hj with rfl | hj
    · exact hi
    · exact hg.range j hj
  rw [List.length_cons] at hmore
  omega

theorem Good.step (hn : 1 ≤ n) (hg : Good n r) (hstep : (race n).step r h r') : Good n r' := by
  cases h with
  | arrive i =>
    obtain ⟨hi, hin, hmem, rfl⟩ := hstep
    refine ⟨?_, ?_, ?_, hg.started, hg.runner⟩
    · show (r.sent ++ [i]).Nodup
      rw [← List.concat_eq_append]
      exact hg.nodup.concat hmem
    · intro j hj
      rcases List.mem_append.mp hj with hj | hj
      · exact hg.range j hj
      · rw [List.mem_singleton.mp hj]
        exact ⟨hi, hin⟩
    · show r.heard ≤ (r.sent ++ [i]).length
      have hle := hg.heard_le
      rw [List.length_append]
      omega
  | hear i =>
    obtain ⟨hget, rfl⟩ := hstep
    have hlt := (List.getElem?_eq_some_iff.mp hget).1
    refine ⟨hg.nodup, hg.range, hlt, fun hleg => ?_, hg.runner⟩
    -- before the baton leaves
    have hheard := hg.started hleg
    have hlength := hg.length_le
    omega
  | start =>
    obtain ⟨hheard, -, rfl⟩ := hstep
    refine ⟨hg.nodup, hg.range, hg.heard_le, fun _ => hheard, fun i hi => ?_⟩
    cases hi
    exact ⟨le_refl _, hn⟩
  | take i =>
    obtain ⟨hleg, rfl⟩ := hstep
    refine ⟨hg.nodup, hg.range, hg.heard_le, fun _ => hg.started (by simp [hleg]), fun j hj => ?_⟩
    cases hj
    exact hg.runner i (by rw [hleg]; rfl)
  | pass i =>
    obtain ⟨hleg, rfl⟩ := hstep
    refine ⟨hg.nodup, hg.range, hg.heard_le, fun _ => hg.started (by simp [hleg]), fun j hj => ?_⟩
    simp only at hj
    split at hj
    · next hlt =>
      cases hj
      omega
    · cases hj
  | finish i =>
    obtain ⟨-, hleg, rfl⟩ := hstep
    refine ⟨hg.nodup, hg.range, hg.heard_le, fun _ => hg.started (by simp [hleg]), fun j hj => ?_⟩
    cases hj

theorem good (hn : 1 ≤ n) (hr : (race n).Reachable r) : Good n r := by
  induction hr with
  | init hr =>
    cases hr
    exact ⟨List.nodup_nil, by simp, le_refl _, by simp, by simp [Leg.runner]⟩
  | step _ hstep ih => exact ih.step hn hstep

/-! ### The order of events -/

/-- How many runners have had the baton. -/
def Leg.taken (n : ℕ) : Leg → ℕ
  | .ready => 0
  | .flying i => i - 1
  | .held i => i
  | .home | .finished => n

/-- What the judge receives. -/
def Happening.isReceive : Happening → Bool
  | .hear _ | .finish _ => true
  | _ => false

/-- A hand-over of the baton, or the finish. -/
def Happening.isHandover : Happening → Bool
  | .take _ | .finish _ => true
  | _ => false

/-- The baton from the first runner to the judge. -/
def course (n : ℕ) : List Happening := (List.range' 1 n).map .take ++ [.finish n]

/-- The baton goes round in order, after all arrivals: what a run may look like. -/
structure Orderly (n : ℕ) (hs : List Happening) : Prop where
  /-- the judge receives arrivals of distinct runners, and after `n` of them the
      finish of runner `n` -/
  receives : ∃ heard : List ℕ, heard.Nodup ∧ (∀ i ∈ heard, 1 ≤ i ∧ i ≤ n) ∧
    (hs.filter Happening.isReceive = heard.map .hear ∨
      heard.length = n ∧ hs.filter Happening.isReceive = heard.map .hear ++ [.finish n])
  /-- nobody gets the baton before `n` arrivals have been received -/
  start : ∀ i, .take i ∈ hs → n ≤ (hs.filter Happening.isReceive).length
  handovers : hs.filter Happening.isHandover <+: course n

/-- A program that is a relay race of `n` runners, seen through `observe`:
    `misuse` are the calls on a queue that has been removed, `batons` counts the
    batons in flight and in hands, `ended` says that all processes have ended. -/
structure IsRelay {S L : Type*} (n : ℕ) (sys : System S L) (observe : L → List Happening)
    (misuse : S → L → Prop) (batons : S → ℕ) (ended : S → Prop) : Prop where
  orderly : ∀ s₀ ls s, sys.init s₀ → sys.Run s₀ ls s → Orderly n (ls.flatMap observe)
  no_misuse : ∀ s l s', sys.Reachable s → sys.step s l s' → ¬ misuse s l
  one_baton : ∀ s, sys.Reachable s → batons s ≤ 1
  not_stuck : ∀ s, sys.Reachable s → ¬ ended s → ∃ l, sys.Enabled s l
  complete : ∀ s₀ ls s, sys.init s₀ → sys.Run s₀ ls s → ended s →
    (ls.flatMap observe).filter Happening.isHandover = course n

/-- Where nobody can move, the race is over and the baton has been all the way
    round. -/
theorem IsRelay.of_quiet {S L : Type*} {n : ℕ} {sys : System S L} {observe : L → List Happening}
    {misuse : S → L → Prop} {batons : S → ℕ} {ended : S → Prop} {s₀ s : S} {ls : List L}
    (hrace : IsRelay n sys observe misuse batons ended) (hinit : sys.init s₀)
    (hrun : sys.Run s₀ ls s) (hquiet : ∀ l, ¬ sys.Enabled s l) :
    ended s ∧ (ls.flatMap observe).filter Happening.isHandover = course n := by
  have hended : ended s := by
    by_contra hlive
    obtain ⟨l, hl⟩ := hrace.not_stuck s (hrun.reachable (.init hinit)) hlive
    exact hquiet l hl
  exact ⟨hended, hrace.complete _ _ _ hinit hrun hended⟩

/-- The finish, once it is over. -/
def Race.last (n : ℕ) (r : Race) : List Happening :=
  if r.leg = .finished then [.finish n] else []

def Race.received (n : ℕ) (r : Race) : List Happening :=
  (r.sent.take r.heard).map .hear ++ r.last n

def Race.handed (n : ℕ) (r : Race) : List Happening :=
  (List.range' 1 (r.leg.taken n)).map .take ++ r.last n

theorem received_step (hg : Good n r) (hstep : (race n).step r h r') :
    r'.received n = r.received n ++ [h].filter Happening.isReceive := by
  cases h with
  | arrive i =>
    obtain ⟨-, -, -, rfl⟩ := hstep
    show _ = _ ++ []
    unfold Race.received
    rw [List.take_append_of_le_length hg.heard_le, List.append_nil]
    rfl
  | hear i =>
    obtain ⟨hget, rfl⟩ := hstep
    -- an arrival is heard before the baton leaves
    have hleg : r.leg = .ready := by
      by_contra hleg
      have hheard := hg.started hleg
      have hlength := hg.length_le
      have hlt := (List.getElem?_eq_some_iff.mp hget).1
      omega
    show _ = _ ++ [Happening.hear i]
    simp [Race.received, Race.last, hleg, List.take_add_one, hget]
  | start =>
    obtain ⟨-, hleg, rfl⟩ := hstep
    show _ = _ ++ []
    simp [Race.received, Race.last, hleg]
  | take i =>
    obtain ⟨hleg, rfl⟩ := hstep
    show _ = _ ++ []
    simp [Race.received, Race.last, hleg]
  | pass i =>
    obtain ⟨hleg, rfl⟩ := hstep
    show _ = _ ++ []
    by_cases hlt : i < n <;> simp [Race.received, Race.last, hleg, hlt]
  | finish i =>
    obtain ⟨rfl, hleg, rfl⟩ := hstep
    show _ = _ ++ [Happening.finish i]
    simp [Race.received, Race.last, hleg]

theorem handed_step (hg : Good n r) (hstep : (race n).step r h r') :
    r'.handed n = r.handed n ++ [h].filter Happening.isHandover := by
  cases h with
  | arrive i =>
    obtain ⟨-, -, -, rfl⟩ := hstep
    exact (List.append_nil _).symm
  | hear i =>
    obtain ⟨-, rfl⟩ := hstep
    exact (List.append_nil _).symm
  | start =>
    obtain ⟨-, hleg, rfl⟩ := hstep
    show _ = _ ++ []
    simp [Race.handed, Race.last, Leg.taken, hleg]
  | take i =>
    obtain ⟨hleg, rfl⟩ := hstep
    -- runner `i` comes after the `i - 1` that have had it
    have hi := (hg.runner i (by rw [hleg]; rfl)).1
    obtain ⟨k, rfl⟩ := Nat.exists_eq_add_of_le' hi
    show _ = _ ++ [Happening.take (k + 1)]
    simp [Race.handed, Race.last, Leg.taken, hleg, List.range'_1_concat, Nat.add_comm]
  | pass i =>
    obtain ⟨hleg, rfl⟩ := hstep
    have hi := (hg.runner i (by rw [hleg]; rfl)).2
    show _ = _ ++ []
    by_cases hlt : i < n
    · simp [Race.handed, Race.last, Leg.taken, hleg, hlt]
    · have heq : i = n := by omega
      simp [Race.handed, Race.last, Leg.taken, hleg, heq]
  | finish i =>
    obtain ⟨rfl, hleg, rfl⟩ := hstep
    show _ = _ ++ [Happening.finish i]
    simp [Race.handed, Race.last, Leg.taken, hleg]

variable {hs : List Happening}

/-- A run is what the race has on record. -/
theorem record (hn : 1 ≤ n) (hrun : (race n).Run ⟨[], 0, .ready⟩ hs r) :
    hs.filter Happening.isReceive = r.received n ∧ hs.filter Happening.isHandover = r.handed n := by
  have hg : Good n ⟨[], 0, .ready⟩ := good hn (.init rfl)
  constructor
  · have hrec := hrun.record (Race.received n)
      (fun s l s' hs hl => ⟨Good.step hn hs hl, received_step hs hl⟩) hg
    rw [hrec]
    rfl
  · have hrec := hrun.record (Race.handed n)
      (fun s l s' hs hl => ⟨Good.step hn hs hl, handed_step hs hl⟩) hg
    rw [hrec]
    rfl

theorem Leg.taken_le (hg : Good n r) : r.leg.taken n ≤ n := by
  cases hleg : r.leg with
  | ready => exact Nat.zero_le _
  | flying i | held i =>
    have hi := (hg.runner i (by rw [hleg]; rfl)).2
    simp only [taken]
    omega
  | home | finished => exact le_refl _

/-- **The race is orderly**, whatever the order of arrivals and of steps. -/
theorem orderly (hn : 1 ≤ n) (hrun : (race n).Run ⟨[], 0, .ready⟩ hs r) : Orderly n hs := by
  have hg : Good n r := good hn (hrun.reachable (.init rfl))
  obtain ⟨hreceived, hhanded⟩ := record hn hrun
  have hlength : r.leg ≠ .ready → (r.sent.take r.heard).length = n := by
    intro hleg
    rw [List.length_take, Nat.min_eq_left hg.heard_le, hg.started hleg]
  refine ⟨⟨r.sent.take r.heard, hg.nodup.sublist (List.take_sublist _ _),
    fun i hi => hg.range i (List.mem_of_mem_take hi), ?_⟩, ?_, ?_⟩
  · rw [hreceived, Race.received, Race.last]
    split
    · next hleg => exact .inr ⟨hlength (by simp [hleg]), rfl⟩
    · exact .inl (List.append_nil _)
  · intro i hi
    have hmem : Happening.take i ∈ hs.filter Happening.isHandover := List.mem_filter.mpr ⟨hi, rfl⟩
    rw [hhanded, Race.handed] at hmem
    -- somebody has had the baton, so it has left the judge
    have hleg : r.leg ≠ .ready := by
      intro hleg
      simp [hleg, Leg.taken, Race.last] at hmem
    rw [hreceived, Race.received, List.length_append, List.length_map, hlength hleg]
    exact Nat.le_add_right _ _
  · rw [hhanded, Race.handed, Race.last, course]
    split
    · next hleg =>
      rw [hleg]
      exact List.prefix_refl _
    · rw [List.append_nil]
      refine List.IsPrefix.trans ?_ (List.prefix_append _ _)
      apply List.IsPrefix.map
      obtain ⟨k, hk⟩ := Nat.exists_eq_add_of_le (Leg.taken_le hg)
      exact ⟨List.range' (1 + 1 * r.leg.taken n) k, by rw [List.range'_append, ← hk]⟩

/-- The whole course has been run once the judge has the finish. -/
theorem handovers_of_finished (hn : 1 ≤ n) (hrun : (race n).Run ⟨[], 0, .ready⟩ hs r)
    (hleg : r.leg = .finished) : hs.filter Happening.isHandover = course n := by
  rw [(record hn hrun).2, Race.handed, Race.last, if_pos hleg, hleg]
  rfl

/-! ### What a runner and the judge are about to do -/

/-- The judge, and the runner with `id = i + 1`. -/
inductive Proc (n : ℕ) where
  | judge
  | runner (i : Fin n)
  deriving DecidableEq

instance (n : ℕ) : Fintype (Proc n) :=
  Fintype.ofEquiv (Option (Fin n))
    { toFun := fun o => o.elim .judge .runner
      invFun := fun p => match p with
        | .judge => none
        | .runner i => some i
      left_inv := fun o => by cases o <;> rfl
      right_inv := fun p => by cases p <;> rfl }

inductive Phase where
  | coming
  | waiting
  | running
  | passed
  deriving DecidableEq

/-- Runner `i` has not arrived, waits for the baton, has it, or has passed it on. -/
def Race.phase (n : ℕ) (r : Race) (i : ℕ) : Phase :=
  if i ∉ r.sent then .coming
  else if r.leg.taken n < i then .waiting
  else if r.leg = .held i then .running
  else .passed

inductive JudgePhase where
  | collecting (arrived : ℕ)
  | starting
  | timing
  | closing
  deriving DecidableEq

/-- The judge collects arrivals, starts the race, waits for the finish, or has it. -/
def Race.judge (n : ℕ) (r : Race) : JudgePhase :=
  if r.heard < n then .collecting r.heard
  else
    match r.leg with
    | .ready => .starting
    | .finished => .closing
    | _ => .timing

theorem Good.ready (hg : Good n r) (hheard : r.heard < n) : r.leg = .ready := by
  by_contra hleg
  have hstarted := hg.started hleg
  omega

/-- Who has yet to arrive keeps the baton with the judge. -/
theorem Good.ready_of_coming (hg : Good n r) {i : ℕ} (hi : 1 ≤ i ∧ i ≤ n) (hmem : i ∉ r.sent) :
    r.leg = .ready := by
  by_contra hleg
  exact hmem (hg.all_sent (hg.started hleg) hi)

theorem Good.mem_of_runner (hg : Good n r) {i : ℕ} (hi : r.leg.runner = some i) : i ∈ r.sent := by
  apply hg.all_sent (hg.started _) (hg.runner i hi)
  intro hleg
  rw [hleg] at hi
  cases hi

/-- The runner the baton flies to waits for it. -/
theorem Good.waiting_of_flying (hg : Good n r) {i : ℕ} (hleg : r.leg = .flying i) :
    r.phase n i = .waiting ∧ 1 ≤ i ∧ i ≤ n := by
  have hrunner : r.leg.runner = some i := by
    rw [hleg]
    rfl
  have hi := hg.runner i hrunner
  refine ⟨?_, hi⟩
  simp [Race.phase, hg.mem_of_runner hrunner, hleg, Leg.taken]
  omega

theorem phase_arrive (hg : Good n r) {i : ℕ} (hstep : (race n).step r (.arrive i) r') :
    r'.phase n = Function.update (r.phase n) i .waiting ∧ r'.judge n = r.judge n := by
  obtain ⟨hi, hin, hmem, rfl⟩ := hstep
  refine ⟨?_, rfl⟩
  funext j
  rcases eq_or_ne j i with rfl | hne
  · have hleg := hg.ready_of_coming ⟨hi, hin⟩ hmem
    rw [Function.update_self]
    simp [Race.phase, hleg, Leg.taken, Nat.lt_of_lt_of_le Nat.zero_lt_one hi]
  · rw [Function.update_of_ne hne]
    simp [Race.phase, hne]

theorem phase_hear (hg : Good n r) {i : ℕ} (hstep : (race n).step r (.hear i) r') :
    r'.phase n = r.phase n ∧ r.judge n = .collecting r.heard ∧
      r'.judge n = if r.heard + 1 < n then .collecting (r.heard + 1) else .starting := by
  obtain ⟨hget, rfl⟩ := hstep
  have hlt := (List.getElem?_eq_some_iff.mp hget).1
  have hlength := hg.length_le
  have hheard : r.heard < n := by omega
  refine ⟨rfl, if_pos hheard, ?_⟩
  simp [Race.judge, hg.ready hheard]

theorem phase_start (hstep : (race n).step r .start r') :
    r'.phase n = r.phase n ∧ r'.judge n = .timing := by
  obtain ⟨hheard, hleg, rfl⟩ := hstep
  constructor
  · funext j
    simp [Race.phase, hleg, Leg.taken]
  · simp [Race.judge, hheard]

theorem phase_take (hg : Good n r) {i : ℕ} (hstep : (race n).step r (.take i) r') :
    r.phase n i = .waiting ∧ r'.phase n = Function.update (r.phase n) i .running ∧
      r'.judge n = r.judge n := by
  obtain ⟨hleg, rfl⟩ := hstep
  have hrunner : r.leg.runner = some i := by
    rw [hleg]
    rfl
  have hi := hg.runner i hrunner
  have hmem := hg.mem_of_runner hrunner
  refine ⟨(hg.waiting_of_flying hleg).1, ?_, ?_⟩
  · funext j
    rcases eq_or_ne j i with rfl | hne
    · rw [Function.update_self]
      simp [Race.phase, hmem, Leg.taken]
    · rw [Function.update_of_ne hne]
      have hlt : i < j ↔ i - 1 < j := by omega
      simp [Race.phase, hleg, Leg.taken, hlt, Ne.symm hne]
  · simp [Race.judge, hleg]

theorem phase_pass (hg : Good n r) {i : ℕ} (hstep : (race n).step r (.pass i) r') :
    r'.phase n = Function.update (r.phase n) i .passed ∧ r'.judge n = r.judge n := by
  obtain ⟨hleg, rfl⟩ := hstep
  have hrunner : r.leg.runner = some i := by
    rw [hleg]
    rfl
  have hi := hg.runner i hrunner
  have hmem := hg.mem_of_runner hrunner
  have htaken : (if i < n then Leg.flying (i + 1) else Leg.home).taken n = i := by
    split
    · simp [Leg.taken]
    · simp only [Leg.taken]
      omega
  have hheld : ∀ j, (if i < n then Leg.flying (i + 1) else Leg.home) ≠ .held j := by
    intro j
    split <;> simp
  constructor
  · funext j
    rcases eq_or_ne j i with rfl | hne
    · rw [Function.update_self]
      simp [Race.phase, hmem, htaken, hheld]
    · rw [Function.update_of_ne hne]
      have hheld₀ : (Leg.held i).taken n = i := rfl
      simp [Race.phase, hleg, htaken, hheld, hheld₀, Ne.symm hne]
  · have hheard := hg.started (by simp [hleg])
    simp only [Race.judge, hheard, hleg, lt_irrefl, ↓reduceIte]
    by_cases hlt : i < n <;> simp [hlt]

theorem phase_finish (hg : Good n r) {i : ℕ} (hstep : (race n).step r (.finish i) r') :
    r'.phase n = r.phase n ∧ r.judge n = .timing ∧ r'.judge n = .closing := by
  obtain ⟨-, hleg, rfl⟩ := hstep
  have hheard := hg.started (by simp [hleg])
  refine ⟨?_, ?_, ?_⟩
  · funext j
    simp [Race.phase, hleg, Leg.taken]
  · simp [Race.judge, hheard, hleg]
  · simp [Race.judge, hheard]

theorem leg_of_running {i : ℕ} (h : r.phase n i = .running) : r.leg = .held i := by
  unfold Race.phase at h
  split_ifs at h with h₁ h₂ h₃
  exact h₃

/-- At most one runner has the baton, and none while it is on its way. -/
theorem card_running_le (n : ℕ) (r : Race) :
    (Finset.univ.filter fun i : Fin n => r.phase n (i + 1) = .running).card ≤
      if r.leg.isFlying then 0 else 1 := by
  split
  · next hflying =>
    rw [Nat.le_zero, Finset.card_eq_zero, Finset.filter_eq_empty_iff]
    intro j _ hj
    rw [leg_of_running hj] at hflying
    cases hflying
  · rw [Finset.card_le_one]
    intro i hi j hj
    have hi := leg_of_running (Finset.mem_filter.mp hi).2
    have hj := leg_of_running (Finset.mem_filter.mp hj).2
    rw [hi, Leg.held.injEq, Nat.add_right_cancel_iff] at hj
    exact Fin.ext hj

theorem finished_of_closing (h : r.judge n = .closing) : r.leg = .finished := by
  unfold Race.judge at h
  split at h
  · cases h
  · split at h
    · cases h
    · next hleg => exact hleg
    · cases h

/-- At the finish every runner has passed the baton on. -/
theorem Good.passed_of_closing (hg : Good n r) (hclosing : r.judge n = .closing) {i : ℕ}
    (hi : 1 ≤ i ∧ i ≤ n) : r.phase n i = .passed := by
  have hleg := finished_of_closing hclosing
  have hmem := hg.all_sent (hg.started (by simp [hleg])) hi
  simp [Race.phase, hmem, hleg, Leg.taken, hi.2]

theorem Good.closing_of_finished (hg : Good n r) (hleg : r.leg = .finished) :
    r.judge n = .closing := by
  have hheard := hg.started (by simp [hleg])
  simp [Race.judge, hheard, hleg]

theorem heard_of_collecting {arrived : ℕ} (h : r.judge n = .collecting arrived) :
    arrived = r.heard ∧ r.heard < n := by
  unfold Race.judge at h
  split at h
  · next hlt =>
    cases h
    exact ⟨rfl, hlt⟩
  · split at h <;> cases h

theorem ready_of_starting (hg : Good n r) (h : r.judge n = .starting) :
    r.heard = n ∧ r.leg = .ready := by
  have hle := hg.heard_le
  have hlength := hg.length_le
  unfold Race.judge at h
  split at h
  · cases h
  · split at h
    · next hleg => exact ⟨by omega, hleg⟩
    · cases h
    · cases h

theorem notMem_of_coming {i : ℕ} (h : r.phase n i = .coming) : i ∉ r.sent := by
  unfold Race.phase at h
  split_ifs at h with h₁ h₂ h₃
  exact h₁

/-- There is always somebody to arrive, an arrival to hear of, or a baton to
    move, until the race is over. -/
theorem Good.next (hg : Good n r) :
    (∃ i, (1 ≤ i ∧ i ≤ n) ∧ r.phase n i = .coming) ∨
    (r.heard < r.sent.length ∧ r.judge n = .collecting r.heard) ∨ r.judge n = .starting ∨
    (∃ i, (1 ≤ i ∧ i ≤ n) ∧ r.leg = .flying i ∧ r.phase n i = .waiting) ∨
    (∃ i, (1 ≤ i ∧ i ≤ n) ∧ r.phase n i = .running) ∨
    (r.leg = .home ∧ r.judge n = .timing) ∨ r.leg = .finished := by
  by_cases hheard : r.heard < n
  · by_cases hall : ∀ i, 1 ≤ i ∧ i ≤ n → i ∈ r.sent
    · right; left
      have hcard : n ≤ r.sent.length := by
        calc n = (Finset.Icc 1 n).card := by simp
          _ ≤ r.sent.toFinset.card := by
            apply Finset.card_le_card
            intro i hi
            exact List.mem_toFinset.mpr (hall i (Finset.mem_Icc.mp hi))
          _ = r.sent.length := List.toFinset_card_of_nodup hg.nodup
      exact ⟨by omega, if_pos hheard⟩
    · left
      simp only [not_forall] at hall
      obtain ⟨i, hi, hmem⟩ := hall
      exact ⟨i, hi, if_pos hmem⟩
  · right; right
    cases hleg : r.leg with
    | ready => exact .inl (by simp [Race.judge, hheard, hleg])
    | flying i =>
      obtain ⟨hphase, hi⟩ := hg.waiting_of_flying hleg
      exact .inr (.inl ⟨i, hi, rfl, hphase⟩)
    | held i =>
      have hrunner : r.leg.runner = some i := by
        rw [hleg]
        rfl
      refine .inr (.inr (.inl ⟨i, hg.runner i hrunner, ?_⟩))
      simp [Race.phase, hg.mem_of_runner hrunner, hleg, Leg.taken]
    | home => exact .inr (.inr (.inr (.inl ⟨rfl, by simp [Race.judge, hheard, hleg]⟩)))
    | finished => exact .inr (.inr (.inr (.inr rfl)))

end Relay
