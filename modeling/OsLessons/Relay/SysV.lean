import OsLessons.Lib.MsgQueue
import OsLessons.Relay.Race

/-! # The relay race over one SysV queue

  `lesson5_stadium.c`: the judge and `n` runners share a queue. Arrivals, the
  finish and the baton of every runner have message types of their own, so the
  queue is one mailbox for each of them.

  The judge makes the queue before it forks. A runner that has not been forked
  yet is one that has not moved; nor is the judge's `wait` for the end of its
  children modelled.
-/

namespace Relay.SysV

open Lts MsgQueue

/-! ### Messages -/

def ARRIVAL_TYPE : ℕ := 1
def JUDGE_TYPE : ℕ := 2
def BATON_BASE : ℕ := 1000

structure msg where
  mtype : ℕ
  runner_id : ℕ
  deriving DecidableEq

def baton_type (i : ℕ) : ℕ := BATON_BASE + i

/-! ### Processes -/

/-- Program points of `runner_proc` and of `main` after the forks. -/
inductive Pc where
  | sendArrival
  | awaitBaton
  /-- `nanosleep` -/
  | running
  | sendPass
  | exited
  | awaitArrival (arrived : ℕ)
  | sendStart
  | awaitFinish
  | remove
  | returned
  /-- `exit(1)` -/
  | died
  deriving DecidableEq

/-- `if (… == -1) die(…)` -/
def orDie (pc : Pc) : Bool → Pc
  | true => pc
  | false => .died

def runner_proc (id n : ℕ) : Pc → Op msg Pc
  | .sendArrival => .msgsnd ⟨ARRIVAL_TYPE, id⟩ (orDie .awaitBaton)
  | .awaitBaton => .msgrcv (baton_type id) false fun r => orDie .running r.isSome
  | .running => .compute .sendPass
  | .sendPass => .msgsnd ⟨if id < n then baton_type (id + 1) else JUDGE_TYPE, id⟩ (orDie .exited)
  | _ => .halt

/-- Head of the loop of `main` over the arrivals. -/
def collect (n arrived : ℕ) : Pc := if arrived < n then .awaitArrival arrived else .sendStart

def main (n : ℕ) : Pc → Op msg Pc
  | .awaitArrival arrived =>
      .msgrcv ARRIVAL_TYPE false fun r => orDie (collect n (arrived + 1)) r.isSome
  | .sendStart => .msgsnd ⟨baton_type 1, 0⟩ (orDie .awaitFinish)
  | .awaitFinish => .msgrcv JUDGE_TYPE false fun r => orDie .remove r.isSome
  | .remove => .rmid .returned
  | _ => .halt

def op (n : ℕ) : Proc n → Pc → Op msg Pc
  | .judge => main n
  | .runner i => runner_proc (i + 1) n

abbrev State (n : ℕ) : Type := Host msg Pc (Proc n)

/-- A process, where it is, and what it does. -/
abbrev Label (n : ℕ) : Type := Proc n × Pc × Call msg

def init (n : ℕ) : State n where
  queue := some []
  proc
    | .judge => collect n 0
    | .runner _ => .sendArrival
  out := []

/-- The judge and the runners in any order, over a queue of capacity `cap`. -/
def stadium (n : ℕ) (cap : Option ℕ) : System (State n) (Label n) where
  init s := s = init n
  step s l s' := l.2.1 = s.proc l.1 ∧ Step msg.mtype cap (op n) s l.1 s' l.2.2

/-- A step of process `p`, with its label. -/
def nextLabel {n : ℕ} (cap : Option ℕ) (s : State n) (p : Proc n) : Option (State n × Label n) :=
  (next msg.mtype cap (op n) s p).map fun r => (r.1, p, s.proc p, r.2)

theorem step_of_nextLabel {n : ℕ} {cap : Option ℕ} {s s' : State n} {p : Proc n} {l : Label n}
    (h : nextLabel cap s p = some (s', l)) : (stadium n cap).step s l s' := by
  obtain ⟨r, hnext, heq⟩ := Option.map_eq_some_iff.mp h
  cases heq
  exact ⟨rfl, step_of_next hnext⟩

/-- The process has ended. -/
def Pc.Ended : Pc → Prop
  | .exited | .returned | .died => True
  | _ => False

/-- What a step is in the race. -/
def observe {n : ℕ} : Label n → List Happening
  | (.runner i, .sendArrival, .sent _) => [.arrive (i + 1)]
  | (.runner i, .awaitBaton, .received _) => [.take (i + 1)]
  | (.runner i, .sendPass, .sent _) => [.pass (i + 1)]
  | (.judge, .awaitArrival _, .received m) => [.hear m.runner_id]
  | (.judge, .sendStart, .sent _) => [.start]
  | (.judge, .awaitFinish, .received m) => [.finish m.runner_id]
  | _ => []

/-! ### The race behind a state -/

def Pc.phase : Pc → Option Phase
  | .sendArrival => some .coming
  | .awaitBaton => some .waiting
  | .running | .sendPass => some .running
  | .exited => some .passed
  | _ => none

def Pc.judge : Pc → Option JudgePhase
  | .awaitArrival arrived => some (.collecting arrived)
  | .sendStart => some .starting
  | .awaitFinish => some .timing
  | .remove | .returned => some .closing
  | _ => none

/-- What is in the mailboxes. -/
structure Posted (n : ℕ) (r : Race) (q : List msg) : Prop where
  arrivals : box msg.mtype ARRIVAL_TYPE q =
    (r.sent.drop r.heard).map fun i => ⟨ARRIVAL_TYPE, i⟩
  finish : box msg.mtype JUDGE_TYPE q = if r.leg = .home then [⟨JUDGE_TYPE, n⟩] else []
  batons : ∀ i, 1 ≤ i → (box msg.mtype (baton_type i) q).length =
    if r.leg = .flying i then 1 else 0
  types : ∀ m ∈ q, m.mtype = ARRIVAL_TYPE ∨ m.mtype = JUDGE_TYPE ∨
    ∃ i, 1 ≤ i ∧ m.mtype = baton_type i

/-- The state `s` is the race `r`. -/
structure Runs (n : ℕ) (s : State n) (r : Race) : Prop where
  good : Good n r
  runner : ∀ i : Fin n, (s.proc (.runner i)).phase = some (r.phase n (i + 1))
  judge : (s.proc .judge).judge = some (r.judge n)
  queue : s.proc .judge = .returned ∧ s.queue = none ∨ ∃ q, s.queue = some q ∧ Posted n r q

variable {n : ℕ} {cap : Option ℕ} {s s' : State n} {r r' : Race} {q : List msg}

theorem baton_type_inj {i j : ℕ} : baton_type i = baton_type j ↔ i = j := by
  simp [baton_type]

theorem types_ne (i : ℕ) : baton_type i ≠ ARRIVAL_TYPE ∧ baton_type i ≠ JUDGE_TYPE ∧
    ARRIVAL_TYPE ≠ JUDGE_TYPE := by
  simp only [baton_type, BATON_BASE, ARRIVAL_TYPE, JUDGE_TYPE]
  omega

/-! ### Mail -/

theorem Posted.arrive (hq : Posted n r q) {i : ℕ} (hheard : r.heard ≤ r.sent.length) :
    Posted n { r with sent := r.sent ++ [i] } (q ++ [⟨ARRIVAL_TYPE, i⟩]) := by
  constructor
  case arrivals =>
    rw [box_snoc, hq.arrivals]
    simp [List.drop_append_of_le_length hheard]
  case finish => simpa [box_snoc, (types_ne 0).2.2] using hq.finish
  case batons =>
    intro j hj
    simpa [box_snoc, (types_ne j).1.symm] using hq.batons j hj
  case types =>
    intro m hm
    rcases List.mem_append.mp hm with hm | hm
    · exact hq.types m hm
    · rw [List.mem_singleton.mp hm]
      exact .inl rfl

/-- The baton is sent to runner `i`. -/
theorem Posted.fly (hq : Posted n r q) (hflying : ∀ j, r.leg ≠ .flying j) (hhome : r.leg ≠ .home)
    {i : ℕ} (hi : 1 ≤ i) (x : ℕ) :
    Posted n { r with leg := .flying i } (q ++ [⟨baton_type i, x⟩]) := by
  obtain ⟨harrival, hjudge, -⟩ := types_ne i
  constructor
  case arrivals => simpa [box_snoc, harrival] using hq.arrivals
  case finish => simpa [box_snoc, hjudge, hhome] using hq.finish
  case batons =>
    intro j hj
    have hold := hq.batons j hj
    rw [if_neg (hflying j), List.length_eq_zero_iff] at hold
    rw [box_snoc, hold]
    by_cases hij : i = j <;> simp [baton_type_inj, hij]
  case types =>
    intro m hm
    rcases List.mem_append.mp hm with hm | hm
    · exact hq.types m hm
    · rw [List.mem_singleton.mp hm]
      exact .inr (.inr ⟨i, hi, rfl⟩)

/-- The last runner sends the finish. -/
theorem Posted.goHome (hq : Posted n r q) (hflying : ∀ j, r.leg ≠ .flying j)
    (hhome : r.leg ≠ .home) :
    Posted n { r with leg := .home } (q ++ [⟨JUDGE_TYPE, n⟩]) := by
  constructor
  case arrivals => simpa [box_snoc, (types_ne 0).2.2.symm] using hq.arrivals
  case finish =>
    have hold := hq.finish
    rw [if_neg hhome] at hold
    simp [box_snoc, hold]
  case batons =>
    intro j hj
    have hold := hq.batons j hj
    rw [if_neg (hflying j)] at hold
    simpa [box_snoc, (types_ne j).2.1.symm] using hold
  case types =>
    intro m hm
    rcases List.mem_append.mp hm with hm | hm
    · exact hq.types m hm
    · rw [List.mem_singleton.mp hm]
      exact .inr (.inl rfl)

theorem Posted.hear (hq : Posted n r q) {m : msg} {q' : List msg}
    (hrecv : recv msg.mtype ARRIVAL_TYPE q = some (m, q')) :
    r.sent[r.heard]? = some m.runner_id ∧ Posted n { r with heard := r.heard + 1 } q' := by
  obtain ⟨-, hbox, hother, hperm⟩ := recv_eq_some hrecv
  rw [hq.arrivals] at hbox
  cases hdrop : r.sent.drop r.heard with
  | nil => simp [hdrop] at hbox
  | cons i rest =>
    rw [hdrop, List.map_cons, List.cons.injEq] at hbox
    obtain ⟨rfl, hrest⟩ := hbox
    refine ⟨by rw [← List.head?_drop, hdrop]; rfl, ?_⟩
    constructor
    case arrivals =>
      rw [← hrest]
      show rest.map _ = (r.sent.drop (r.heard + 1)).map _
      rw [← List.tail_drop, hdrop]
      rfl
    case finish => simpa [hother _ (types_ne 0).2.2.symm] using hq.finish
    case batons =>
      intro j hj
      simpa [hother _ (types_ne j).1] using hq.batons j hj
    case types => exact fun m hm => hq.types m (hperm.symm.subset (List.mem_cons_of_mem _ hm))

theorem Posted.take (hq : Posted n r q) {i : ℕ} (hi : 1 ≤ i) {m : msg} {q' : List msg}
    (hrecv : recv msg.mtype (baton_type i) q = some (m, q')) :
    r.leg = .flying i ∧ Posted n { r with leg := .held i } q' := by
  obtain ⟨-, hbox, hother, hperm⟩ := recv_eq_some hrecv
  obtain ⟨harrival, hjudge, -⟩ := types_ne i
  have hlength := hq.batons i hi
  rw [hbox, List.length_cons] at hlength
  have hleg : r.leg = .flying i := by
    by_contra hleg
    simp [hleg] at hlength
  refine ⟨hleg, ?_⟩
  constructor
  case arrivals => simpa [hother _ harrival.symm] using hq.arrivals
  case finish => simpa [hother _ hjudge.symm, hleg] using hq.finish
  case batons =>
    intro j hj
    rw [if_neg (by simp)]
    rcases eq_or_ne j i with rfl | hne
    · rw [if_pos hleg] at hlength
      omega
    · rw [hother _ fun h => hne (baton_type_inj.mp h), hq.batons j hj, hleg]
      simp [Ne.symm hne]
  case types => exact fun m hm => hq.types m (hperm.symm.subset (List.mem_cons_of_mem _ hm))

theorem Posted.finished (hq : Posted n r q) {m : msg} {q' : List msg}
    (hrecv : recv msg.mtype JUDGE_TYPE q = some (m, q')) :
    r.leg = .home ∧ m.runner_id = n ∧ Posted n { r with leg := .finished } q' := by
  obtain ⟨-, hbox, hother, hperm⟩ := recv_eq_some hrecv
  have hfinish := hq.finish
  rw [hbox] at hfinish
  have hleg : r.leg = .home := by
    by_contra hleg
    simp [hleg] at hfinish
  rw [if_pos hleg, List.cons.injEq] at hfinish
  obtain ⟨rfl, hrest⟩ := hfinish
  refine ⟨hleg, rfl, ?_⟩
  constructor
  case arrivals => simpa [hother _ (types_ne 0).2.2] using hq.arrivals
  case finish => simpa using hrest
  case batons =>
    intro j hj
    simpa [hother _ (types_ne j).2.1, hleg] using hq.batons j hj
  case types => exact fun m hm => hq.types m (hperm.symm.subset (List.mem_cons_of_mem _ hm))

/-! ### One step of the program is one of the race, or none -/

theorem Runs.opened (hR : Runs n s r) (h : s.proc .judge ≠ .returned) :
    ∃ q, s.queue = some q ∧ Posted n r q := by
  rcases hR.queue with ⟨hreturned, -⟩ | hq
  · exact absurd hreturned h
  · exact hq

/-- A runner that has not passed the baton on finds the queue. -/
theorem Runs.opened_of_phase (hR : Runs n s r) {i : Fin n} (h : r.phase n (i + 1) ≠ .passed) :
    ∃ q, s.queue = some q ∧ Posted n r q := by
  apply hR.opened
  intro hreturned
  have hjudge := hR.judge
  rw [hreturned] at hjudge
  exact h (hR.good.passed_of_closing (Option.some.inj hjudge).symm ⟨by omega, by omega⟩)

theorem Runs.phase_eq (hR : Runs n s r) {i : Fin n} {pc : Pc} {ph : Phase}
    (hpc : s.proc (.runner i) = pc) (hph : pc.phase = some ph) : r.phase n (i + 1) = ph := by
  have hrunner := hR.runner i
  rw [hpc, hph] at hrunner
  exact (Option.some.inj hrunner).symm

theorem Runs.judge_eq (hR : Runs n s r) {pc : Pc} {ph : JudgePhase}
    (hpc : s.proc .judge = pc) (hph : pc.judge = some ph) : r.judge n = ph := by
  have hjudge := hR.judge
  rw [hpc, hph] at hjudge
  exact (Option.some.inj hjudge).symm

/-- Runner `i` has moved, with a queue that is still there. -/
theorem Runs.runner_moved (hR : Runs n s r) (hg : Good n r') {i : Fin n} {pc : Pc} {ph : Phase}
    {s₁ : State n} (hproc : s₁.proc = s.proc) (hpc : pc.phase = some ph)
    (hphase : r'.phase n = Function.update (r.phase n) (i + 1) ph)
    (hjudge : r'.judge n = r.judge n) (hqueue : s₁.queue = some q) (hq : Posted n r' q) :
    Runs n (s₁.goto (.runner i) pc) r' := by
  refine ⟨hg, ?_, ?_, .inr ⟨q, hqueue, hq⟩⟩
  · intro j
    rcases eq_or_ne j i with rfl | hne
    · rw [Host.goto_proc_self, hphase, Function.update_self, hpc]
    · rw [Host.goto_proc_ne _ _ (by simpa using hne), hproc, hphase,
        Function.update_of_ne (by simpa [Fin.ext_iff] using hne)]
      exact hR.runner j
  · rw [Host.goto_proc_ne _ _ (by simp), hproc, hjudge]
    exact hR.judge

/-- The judge has moved. -/
theorem Runs.judge_moved (hR : Runs n s r) (hg : Good n r') {pc : Pc} {s₁ : State n}
    (hproc : s₁.proc = s.proc) (hphase : r'.phase n = r.phase n)
    (hjudge : pc.judge = some (r'.judge n))
    (hqueue : pc = .returned ∧ s₁.queue = none ∨ ∃ q, s₁.queue = some q ∧ Posted n r' q) :
    Runs n (s₁.goto .judge pc) r' := by
  refine ⟨hg, ?_, ?_, ?_⟩
  · intro j
    rw [Host.goto_proc_ne _ _ (by simp), hproc, hphase]
    exact hR.runner j
  · rw [Host.goto_proc_self]
    exact hjudge
  · rwa [Host.goto_proc_self]

theorem op_runner {i : Fin n} {pc : Pc} (hpc : s.proc (.runner i) = pc) :
    op n (.runner i) (s.proc (.runner i)) = runner_proc (i + 1) n pc := by
  rw [hpc]
  rfl

theorem op_judge {pc : Pc} (hpc : s.proc .judge = pc) :
    op n .judge (s.proc .judge) = main n pc := by
  rw [hpc]
  rfl

theorem runner_step (hn : 1 ≤ n) (hR : Runs n s r) {i : Fin n} {call : Call msg}
    (h : Step msg.mtype cap (op n) s (.runner i) s' call) :
    call ≠ .failed ∧ ∃ r', (race n).Run r (observe (.runner i, s.proc (.runner i), call)) r' ∧
      Runs n s' r' := by
  have hi : 1 ≤ (i : ℕ) + 1 ∧ (i : ℕ) + 1 ≤ n := ⟨by omega, by omega⟩
  cases hpc : s.proc (.runner i) with
  | sendArrival =>
    have hphase := hR.phase_eq hpc rfl
    obtain ⟨q, hqueue, hq⟩ := hR.opened_of_phase (i := i) (by rw [hphase]; decide)
    obtain ⟨-, rfl, rfl⟩ := h.of_msgsnd (op_runner hpc) hqueue
    have hstep : (race n).step r (.arrive (i + 1)) { r with sent := r.sent ++ [(i : ℕ) + 1] } :=
      ⟨hi.1, hi.2, notMem_of_coming hphase, rfl⟩
    obtain ⟨hphase', hjudge'⟩ := phase_arrive hR.good hstep
    exact ⟨by simp, _, .single hstep, hR.runner_moved (hR.good.step hn hstep) rfl rfl hphase' hjudge'
      rfl (hq.arrive hR.good.heard_le)⟩
  | awaitBaton =>
    have hphase := hR.phase_eq hpc rfl
    obtain ⟨q, hqueue, hq⟩ := hR.opened_of_phase (i := i) (by rw [hphase]; decide)
    obtain ⟨m, q', hrecv, rfl, rfl⟩ := h.of_msgrcv (op_runner hpc) hqueue
    obtain ⟨hleg, hq'⟩ := hq.take hi.1 hrecv
    have hstep : (race n).step r (.take (i + 1)) { r with leg := .held (i + 1) } := ⟨hleg, rfl⟩
    obtain ⟨-, hphase', hjudge'⟩ := phase_take hR.good hstep
    exact ⟨by simp, _, .single hstep, hR.runner_moved (hR.good.step hn hstep) rfl rfl hphase' hjudge'
      rfl hq'⟩
  | running =>
    have hphase := hR.phase_eq hpc rfl
    obtain ⟨q, hqueue, hq⟩ := hR.opened_of_phase (i := i) (by rw [hphase]; decide)
    obtain ⟨rfl, rfl⟩ := h.of_compute (op_runner hpc)
    refine ⟨by simp, r, .nil r, hR.runner_moved hR.good rfl rfl ?_ rfl hqueue hq⟩
    rw [← hphase, Function.update_eq_self]
  | sendPass =>
    have hphase := hR.phase_eq hpc rfl
    obtain ⟨q, hqueue, hq⟩ := hR.opened_of_phase (i := i) (by rw [hphase]; decide)
    obtain ⟨-, rfl, rfl⟩ := h.of_msgsnd (op_runner hpc) hqueue
    have hleg := leg_of_running hphase
    have hstep : (race n).step r (.pass (i + 1)) _ := ⟨hleg, rfl⟩
    obtain ⟨hphase', hjudge'⟩ := phase_pass hR.good hstep
    refine ⟨by simp, _, .single hstep, hR.runner_moved (hR.good.step hn hstep) rfl rfl hphase' hjudge'
      rfl ?_⟩
    have hflying : ∀ j, r.leg ≠ .flying j := by simp [hleg]
    have hhome : r.leg ≠ .home := by simp [hleg]
    by_cases hlt : (i : ℕ) + 1 < n
    · simp only [hlt, ↓reduceIte]
      exact hq.fly hflying hhome (by omega) _
    · have heq : (i : ℕ) + 1 = n := by omega
      simp only [hlt, ↓reduceIte]
      rw [heq]
      exact hq.goHome hflying hhome
  | exited | died => exact absurd (op_runner hpc) h.of_halt
  | awaitArrival | sendStart | awaitFinish | remove | returned =>
    have hrunner := hR.runner i
    rw [hpc] at hrunner
    cases hrunner

theorem collect_judge (n arrived : ℕ) : (collect n arrived).judge =
    some (if arrived < n then .collecting arrived else .starting) := by
  unfold collect
  split <;> rfl

theorem judge_step (hn : 1 ≤ n) (hR : Runs n s r) {call : Call msg}
    (h : Step msg.mtype cap (op n) s .judge s' call) :
    call ≠ .failed ∧ ∃ r', (race n).Run r (observe ((.judge, s.proc .judge, call) : Label n)) r' ∧
      Runs n s' r' := by
  cases hpc : s.proc .judge with
  | awaitArrival arrived =>
    obtain ⟨q, hqueue, hq⟩ := hR.opened (by simp [hpc])
    obtain ⟨m, q', hrecv, rfl, rfl⟩ := h.of_msgrcv (op_judge hpc) hqueue
    obtain ⟨hget, hq'⟩ := hq.hear hrecv
    have hstep : (race n).step r (.hear m.runner_id) { r with heard := r.heard + 1 } := ⟨hget, rfl⟩
    obtain ⟨hphase', hjudge, hjudge'⟩ := phase_hear hR.good hstep
    rw [hR.judge_eq hpc rfl] at hjudge
    cases hjudge
    refine ⟨by simp, _, .single hstep, hR.judge_moved (hR.good.step hn hstep) rfl hphase' ?_
      (.inr ⟨q', rfl, hq'⟩)⟩
    rw [hjudge']
    exact collect_judge n _
  | sendStart =>
    obtain ⟨q, hqueue, hq⟩ := hR.opened (by simp [hpc])
    obtain ⟨-, rfl, rfl⟩ := h.of_msgsnd (op_judge hpc) hqueue
    obtain ⟨hheard, hleg⟩ := ready_of_starting hR.good (hR.judge_eq hpc rfl)
    have hstep : (race n).step r .start { r with leg := .flying 1 } := ⟨hheard, hleg, rfl⟩
    obtain ⟨hphase', hjudge'⟩ := phase_start hstep
    refine ⟨by simp, _, .single hstep, hR.judge_moved (hR.good.step hn hstep) rfl hphase' ?_
      (.inr ⟨_, rfl, hq.fly (by simp [hleg]) (by simp [hleg]) le_rfl 0⟩)⟩
    rw [hjudge']
    rfl
  | awaitFinish =>
    obtain ⟨q, hqueue, hq⟩ := hR.opened (by simp [hpc])
    obtain ⟨m, q', hrecv, rfl, rfl⟩ := h.of_msgrcv (op_judge hpc) hqueue
    obtain ⟨hleg, hid, hq'⟩ := hq.finished hrecv
    have hstep : (race n).step r (.finish m.runner_id) { r with leg := .finished } :=
      ⟨hid, hleg, rfl⟩
    obtain ⟨hphase', -, hjudge'⟩ := phase_finish hR.good hstep
    refine ⟨by simp, _, .single hstep, hR.judge_moved (hR.good.step hn hstep) rfl hphase' ?_
      (.inr ⟨q', rfl, hq'⟩)⟩
    rw [hjudge']
    rfl
  | remove =>
    obtain ⟨rfl, rfl⟩ := h.of_rmid (op_judge hpc)
    refine ⟨by simp, r, .nil r, hR.judge_moved hR.good rfl rfl ?_ (.inl ⟨rfl, rfl⟩)⟩
    rw [hR.judge_eq hpc rfl]
    rfl
  | returned | died => exact absurd (op_judge hpc) h.of_halt
  | sendArrival | awaitBaton | running | sendPass | exited =>
    have hjudge := hR.judge
    rw [hpc] at hjudge
    cases hjudge

/-- **Simulation**: no call of the program fails, and every step is one of the
    race or is not seen there. -/
theorem Runs.step (hn : 1 ≤ n) (hR : Runs n s r) {l : Label n} (h : (stadium n cap).step s l s') :
    l.2.2 ≠ .failed ∧ ∃ r', (race n).Run r (observe l) r' ∧ Runs n s' r' := by
  obtain ⟨p, pc, call⟩ := l
  obtain ⟨hpc, h⟩ := h
  change pc = s.proc p at hpc
  subst hpc
  cases p with
  | judge => exact judge_step hn hR h
  | runner i => exact runner_step hn hR h

theorem runs_init (hn : 1 ≤ n) : Runs n (init n) ⟨[], 0, .ready⟩ := by
  have hjudge : (Race.judge n ⟨[], 0, .ready⟩) = .collecting 0 := if_pos hn
  refine ⟨good hn (.init rfl), fun i => ?_, ?_, .inr ⟨[], rfl, ?_⟩⟩
  · simp [init, Pc.phase, Race.phase]
  · rw [hjudge]
    show (collect n 0).judge = _
    rw [collect_judge, if_pos (show 0 < n from hn)]
  · exact ⟨rfl, rfl, fun i _ => by simp, by simp⟩

theorem stadium_simulation (hn : 1 ≤ n) (cap : Option ℕ) :
    Simulation (stadium n cap) (race n) observe (Runs n) where
  init := by
    rintro _ rfl
    exact ⟨_, rfl, runs_init hn⟩
  step _ _ _ _ hR h := (hR.step hn h).2

/-! ### Progress -/

/-- A message in the queue can be received, so a full queue stops nobody for
    good. -/
theorem Posted.waited (hq : Posted n r q) (hg : Good n r) {m : msg} (hm : m ∈ q) :
    (m.mtype = ARRIVAL_TYPE ∧ r.judge n = .collecting r.heard) ∨
    (m.mtype = JUDGE_TYPE ∧ r.judge n = .timing) ∨
    ∃ i : Fin n, m.mtype = baton_type (i + 1) ∧ r.phase n (i + 1) = .waiting := by
  have hbox : ∀ t, m.mtype = t → box msg.mtype t q ≠ [] := by
    intro t ht hnil
    have hmem := mem_box.mpr ⟨hm, ht⟩
    rw [hnil] at hmem
    cases hmem
  rcases hq.types m hm with ht | ht | ⟨i, hi, ht⟩
  · left
    have hne := hbox _ ht
    rw [hq.arrivals] at hne
    have hlt : r.heard < r.sent.length := by
      by_contra hle
      simp [List.drop_eq_nil_of_le (not_lt.mp hle)] at hne
    have hlength := hg.length_le
    exact ⟨ht, if_pos (by omega)⟩
  · right; left
    have hne := hbox _ ht
    rw [hq.finish] at hne
    have hleg : r.leg = .home := by
      by_contra hleg
      simp [hleg] at hne
    have hheard := hg.started (by simp [hleg])
    exact ⟨ht, by simp [Race.judge, hheard, hleg]⟩
  · right; right
    have hne := hbox _ ht
    have hlength := hq.batons i hi
    have hleg : r.leg = .flying i := by
      by_contra hleg
      rw [if_neg hleg, List.length_eq_zero_iff] at hlength
      exact hne hlength
    obtain ⟨hphase, hrange⟩ := hg.waiting_of_flying hleg
    refine ⟨⟨i - 1, by omega⟩, ?_⟩
    simp only [Nat.sub_add_cancel hi]
    exact ⟨ht, hphase⟩

theorem pc_of_phase {pc : Pc} {ph : Phase} (h : pc.phase = some ph) :
    match ph with
    | .coming => pc = .sendArrival
    | .waiting => pc = .awaitBaton
    | .running => pc = .running ∨ pc = .sendPass
    | .passed => pc = .exited := by
  cases pc <;> cases h <;> simp

theorem pc_of_judge {pc : Pc} {ph : JudgePhase} (h : pc.judge = some ph) :
    match ph with
    | .collecting arrived => pc = .awaitArrival arrived
    | .starting => pc = .sendStart
    | .timing => pc = .awaitFinish
    | .closing => pc = .remove ∨ pc = .returned := by
  cases pc <;> cases h <;> simp

section quiet
variable (hR : Runs n s r) (hquiet : ∀ p, next msg.mtype cap (op n) s p = none)

include hR hquiet

/-- Who is waited for has nothing in its box. -/
theorem Runs.no_baton {i : Fin n} (hphase : r.phase n (i + 1) = .waiting)
    (hqueue : s.queue = some q) : box msg.mtype (baton_type (i + 1)) q = [] := by
  have hpc : s.proc (.runner i) = .awaitBaton := pc_of_phase (hphase ▸ hR.runner i)
  exact box_of_next_eq_none (hquiet _) (op_runner hpc) hqueue

theorem Runs.no_arrival {arrived : ℕ} (hjudge : r.judge n = .collecting arrived)
    (hqueue : s.queue = some q) : box msg.mtype ARRIVAL_TYPE q = [] := by
  have hpc : s.proc .judge = .awaitArrival arrived := pc_of_judge (hjudge ▸ hR.judge)
  exact box_of_next_eq_none (hquiet _) (op_judge hpc) hqueue

theorem Runs.no_finish (hjudge : r.judge n = .timing) (hqueue : s.queue = some q) :
    box msg.mtype JUDGE_TYPE q = [] := by
  have hpc : s.proc .judge = .awaitFinish := pc_of_judge (hjudge ▸ hR.judge)
  exact box_of_next_eq_none (hquiet _) (op_judge hpc) hqueue

/-- Where nobody can move there is no mail, so there is room for some. -/
theorem Runs.room_of_quiet (hcap : ∀ Q ∈ cap, 1 ≤ Q) (hqueue : s.queue = some q)
    (hq : Posted n r q) : room cap q := by
  cases q with
  | nil => exact fun Q hQ => hcap Q hQ
  | cons m q =>
    exfalso
    have hmem : ∀ t, m.mtype = t → box msg.mtype t (m :: q) ≠ [] := by
      intro t ht
      simp [box, ht]
    rcases hq.waited hR.good (List.mem_cons_self ..) with ⟨ht, hjudge⟩ | ⟨ht, hjudge⟩ | ⟨i, ht, hph⟩
    · exact hmem _ ht (hR.no_arrival hquiet hjudge hqueue)
    · exact hmem _ ht (hR.no_finish hquiet hjudge hqueue)
    · exact hmem _ ht (hR.no_baton hquiet hph hqueue)

/-- Where nobody can move, everybody has ended. -/
theorem Runs.ended_of_quiet (hcap : ∀ Q ∈ cap, 1 ≤ Q) (p : Proc n) : (s.proc p).Ended := by
  have hroom := fun q => hR.room_of_quiet hquiet (q := q) hcap
  rcases hR.good.next with ⟨i, hi, hphase⟩ | ⟨hlt, hjudge⟩ | hjudge | ⟨i, hi, hleg, hphase⟩ |
    ⟨i, hi, hphase⟩ | ⟨hleg, hjudge⟩ | hleg
  -- `i` has yet to arrive
  · obtain ⟨i, rfl⟩ := Nat.exists_eq_add_of_le' hi.1
    have hpc : s.proc (.runner ⟨i, hi.2⟩) = .sendArrival :=
      pc_of_phase (hphase ▸ hR.runner ⟨i, hi.2⟩)
    obtain ⟨q, hqueue, hq⟩ := hR.opened_of_phase (i := ⟨i, hi.2⟩) (by simp [hphase])
    exact absurd (hroom q hqueue hq) (full_of_next_eq_none (hquiet _) (op_runner hpc) hqueue)
  -- there is an arrival to hear of
  · have hpc : s.proc .judge = .awaitArrival r.heard := pc_of_judge (hjudge ▸ hR.judge)
    obtain ⟨q, hqueue, hq⟩ := hR.opened (by simp [hpc])
    have hbox := hR.no_arrival hquiet hjudge hqueue
    rw [hq.arrivals, List.map_eq_nil_iff, List.drop_eq_nil_iff] at hbox
    omega
  · have hpc : s.proc .judge = .sendStart := pc_of_judge (hjudge ▸ hR.judge)
    obtain ⟨q, hqueue, hq⟩ := hR.opened (by simp [hpc])
    exact absurd (hroom q hqueue hq) (full_of_next_eq_none (hquiet _) (op_judge hpc) hqueue)
  -- the baton is on its way
  · obtain ⟨i, rfl⟩ := Nat.exists_eq_add_of_le' hi.1
    obtain ⟨q, hqueue, hq⟩ := hR.opened_of_phase (i := ⟨i, hi.2⟩) (by simp [hphase])
    have hlength := hq.batons _ hi.1
    rw [hR.no_baton hquiet (i := ⟨i, hi.2⟩) hphase hqueue, if_pos hleg] at hlength
    cases hlength
  -- `i` has the baton
  · obtain ⟨i, rfl⟩ := Nat.exists_eq_add_of_le' hi.1
    obtain ⟨q, hqueue, hq⟩ := hR.opened_of_phase (i := ⟨i, hi.2⟩) (by simp [hphase])
    have hpc : s.proc (.runner ⟨i, hi.2⟩) = .running ∨ s.proc (.runner ⟨i, hi.2⟩) = .sendPass :=
      pc_of_phase (hphase ▸ hR.runner ⟨i, hi.2⟩)
    rcases hpc with hpc | hpc
    · have hnone := hquiet (.runner ⟨i, hi.2⟩)
      simp [next, op_runner hpc, runner_proc] at hnone
    · exact absurd (hroom q hqueue hq) (full_of_next_eq_none (hquiet _) (op_runner hpc) hqueue)
  -- the finish is on its way
  · have hpc : s.proc .judge = .awaitFinish := pc_of_judge (hjudge ▸ hR.judge)
    obtain ⟨q, hqueue, hq⟩ := hR.opened (by simp [hpc])
    have hbox := hR.no_finish hquiet hjudge hqueue
    rw [hq.finish, if_pos hleg] at hbox
    cases hbox
  · have hclosing := hR.good.closing_of_finished hleg
    cases p with
    | judge =>
      have hpc : s.proc .judge = .remove ∨ s.proc .judge = .returned :=
        pc_of_judge (hclosing ▸ hR.judge)
      rcases hpc with hpc | hpc
      · have hnone := hquiet .judge
        simp [next, op_judge hpc, main] at hnone
      · rw [hpc]
        trivial
    | runner i =>
      have hphase := hR.good.passed_of_closing hclosing (i := i + 1) ⟨by omega, by omega⟩
      have hpc : s.proc (.runner i) = .exited := pc_of_phase (hphase ▸ hR.runner i)
      rw [hpc]
      trivial

end quiet

/-! ### Results -/

/-- A runner that has the baton. -/
def Pc.hasBaton : Pc → Bool
  | .running | .sendPass => true
  | _ => false

/-- The batons in the queue and in the hands of runners. -/
def batons (s : State n) : ℕ :=
  (s.queue.getD []).countP (fun m => BATON_BASE < m.mtype) +
    (Finset.univ.filter fun i => (s.proc (.runner i)).hasBaton).card

theorem Posted.countP_le (hq : Posted n r q) (hg : Good n r) :
    q.countP (fun m => BATON_BASE < m.mtype) ≤ if r.leg.isFlying then 1 else 0 := by
  -- a baton in the queue flies to somebody
  have hbaton : ∀ m ∈ q, BATON_BASE < m.mtype → ∃ i, r.leg = .flying i ∧ m.mtype = baton_type i := by
    intro m hm hlt
    rcases hq.types m hm with ht | ht | ⟨i, hi, ht⟩
    · rw [ht] at hlt
      exact absurd hlt (by decide)
    · rw [ht] at hlt
      exact absurd hlt (by decide)
    · refine ⟨i, ?_, ht⟩
      by_contra hleg
      have hlength := hq.batons i hi
      rw [if_neg hleg, List.length_eq_zero_iff] at hlength
      have hmem := mem_box.mpr ⟨hm, ht⟩
      rw [hlength] at hmem
      cases hmem
  cases hleg : r.leg with
  | flying i =>
    calc q.countP (fun m => BATON_BASE < m.mtype)
        ≤ q.countP (fun m => m.mtype = baton_type i) := by
          apply List.countP_mono_left
          intro m hm hlt
          obtain ⟨j, hj, ht⟩ := hbaton m hm (of_decide_eq_true hlt)
          rw [hleg] at hj
          cases hj
          exact decide_eq_true ht
      _ = (box msg.mtype (baton_type i) q).length := List.countP_eq_length_filter
      _ ≤ 1 := by
          rw [hq.batons i (hg.waiting_of_flying hleg).2.1]
          split <;> decide
  | ready | held | home | finished =>
    show _ ≤ 0
    rw [Nat.le_zero, List.countP_eq_zero]
    intro m hm hlt
    obtain ⟨i, hi, -⟩ := hbaton m hm (of_decide_eq_true hlt)
    rw [hleg] at hi
    cases hi

theorem hasBaton_iff {pc : Pc} {ph : Phase} (h : pc.phase = some ph) :
    pc.hasBaton ↔ ph = .running := by
  cases pc <;> cases h <;> simp [Pc.hasBaton]

theorem Runs.batons_le (hR : Runs n s r) : batons s ≤ 1 := by
  have hholders : (Finset.univ.filter fun i => (s.proc (.runner i)).hasBaton) =
      Finset.univ.filter fun i : Fin n => r.phase n (i + 1) = .running :=
    Finset.filter_congr fun i _ => hasBaton_iff (hR.runner i)
  have hcard := card_running_le n r
  have hcount : (s.queue.getD []).countP (fun m => BATON_BASE < m.mtype) ≤
      if r.leg.isFlying then 1 else 0 := by
    rcases hR.queue with ⟨-, hqueue⟩ | ⟨q, hqueue, hq⟩
    · rw [hqueue]
      exact Nat.zero_le _
    · rw [hqueue]
      exact hq.countP_le hR.good
  unfold batons
  rw [hholders]
  cases hflying : r.leg.isFlying <;> rw [hflying] at hcard hcount
  · exact Nat.add_le_add hcount hcard
  · exact Nat.add_le_add hcount hcard

theorem closing_of_ended {pc : Pc} {ph : JudgePhase} (h : pc.judge = some ph) (hend : pc.Ended) :
    ph = .closing := by
  cases pc <;> cases h <;> first | rfl | cases hend

/-- A call on a queue that has been removed fails. -/
def misuse (_ : State n) (l : Label n) : Prop := l.2.2 = .failed

/-- All processes have ended. -/
def Ended (s : State n) : Prop := ∀ p, (s.proc p).Ended

/-- **The race over one queue**, of any capacity that is not zero. -/
theorem stadium_race (hn : 1 ≤ n) (hcap : ∀ Q ∈ cap, 1 ≤ Q) :
    IsRelay n (stadium n cap) observe misuse batons Ended := by
  have hsim := stadium_simulation hn cap
  constructor
  case orderly =>
    rintro _ ls s rfl hrun
    obtain ⟨r, hrace, -⟩ := hsim.run hrun (runs_init hn)
    exact orderly hn hrace
  case no_misuse =>
    intro s l s' hs hl
    obtain ⟨r, -, hR⟩ := hsim.reachable hs
    exact (hR.step hn hl).1
  case one_baton =>
    intro s hs
    obtain ⟨r, -, hR⟩ := hsim.reachable hs
    exact hR.batons_le
  case not_stuck =>
    intro s hs hended
    obtain ⟨r, -, hR⟩ := hsim.reachable hs
    by_contra hnone
    apply hended
    apply hR.ended_of_quiet _ hcap
    intro p
    cases hnext : next msg.mtype cap (op n) s p with
    | none => rfl
    | some result => exact absurd ⟨(p, s.proc p, result.2), result.1, rfl, step_of_next hnext⟩ hnone
  case complete =>
    rintro _ ls s rfl hrun hended
    obtain ⟨r, hrace, hR⟩ := hsim.run hrun (runs_init hn)
    apply handovers_of_finished hn hrace
    apply finished_of_closing
    exact closing_of_ended hR.judge (hended .judge)

end Relay.SysV
