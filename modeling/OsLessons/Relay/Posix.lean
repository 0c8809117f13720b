import OsLessons.Lib.NamedQueue
import OsLessons.Relay.Race

/-! # The relay race over POSIX queues

  `lesson5_stadium_posix.c`: every runner has a queue for the baton, and the
  judge has one where arrivals and the finish look alike: both are the number of
  a runner. What tells them apart is that the last arrival has been received
  before the baton leaves.

  The judge makes all queues before it forks, so a runner that has not been
  forked yet is one that has not moved. `mq_close` and the judge's `wait` for
  the end of its children are not modelled.
-/

namespace Relay.Posix

open Lts NamedQueue

/-! ### Processes -/

/-- `qname_judge` and `qname_runner`. -/
inductive Name where
  | judge
  | runner (i : ℕ)
  deriving DecidableEq

def mq_maxmsg : ℕ := 10

/-- Program points of `runner_proc` and of `main` after the forks. -/
inductive Pc where
  | openMy
  | openNext
  | openJudge
  | sendArrival
  | awaitBaton
  /-- `nanosleep` -/
  | running
  | sendPass
  | exited
  | awaitArrival (arrived : ℕ)
  | openFirst
  | sendStart
  | awaitFinish
  | unlinkJudge
  | unlinkRunner (i : ℕ)
  | returned
  /-- `exit(1)` -/
  | died
  deriving DecidableEq

/-- `if (… == (mqd_t)-1) die(…)` -/
def orDie (pc : Pc) : Bool → Pc
  | true => pc
  | false => .died

/-- The payload of every message of a runner is its number. -/
def runner_proc (id n : ℕ) : Pc → Op ℕ Name Pc
  | .openMy => .mq_open (.runner id) (orDie (if id < n then .openNext else .openJudge))
  | .openNext => .mq_open (.runner (id + 1)) (orDie .openJudge)
  | .openJudge => .mq_open .judge (orDie .sendArrival)
  | .sendArrival => .mq_send .judge id .awaitBaton
  | .awaitBaton => .mq_receive (.runner id) fun _ => .running
  | .running => .compute .sendPass
  | .sendPass => .mq_send (if id < n then .runner (id + 1) else .judge) id .exited
  | _ => .halt

/-- Head of the loop of `main` over the arrivals. -/
def collect (n arrived : ℕ) : Pc := if arrived < n then .awaitArrival arrived else .openFirst

/-- Head of the loop of `main` that unlinks the queues of the runners. -/
def unlinkFrom (n i : ℕ) : Pc := if i ≤ n then .unlinkRunner i else .returned

def main (n : ℕ) : Pc → Op ℕ Name Pc
  | .awaitArrival arrived => .mq_receive .judge fun _ => collect n (arrived + 1)
  | .openFirst => .mq_open (.runner 1) (orDie .sendStart)
  | .sendStart => .mq_send (.runner 1) 1 .awaitFinish
  | .awaitFinish => .mq_receive .judge fun _ => .unlinkJudge
  | .unlinkJudge => .mq_unlink .judge (unlinkFrom n 1)
  | .unlinkRunner i => .mq_unlink (.runner i) (unlinkFrom n (i + 1))
  | _ => .halt

def op (n : ℕ) : Proc n → Pc → Op ℕ Name Pc
  | .judge => main n
  | .runner i => runner_proc (i + 1) n

abbrev State (n : ℕ) : Type := Host ℕ Name Pc (Proc n)

/-- A process, where it is, and what it does. -/
abbrev Label (n : ℕ) : Type := Proc n × Pc × Call ℕ Name

/-- The queues that `main` has made. -/
def created (n : ℕ) : Name → Bool
  | .judge => true
  | .runner i => decide (1 ≤ i ∧ i ≤ n)

def init (n : ℕ) : State n where
  queue k := { msgs := [], linked := created n k }
  proc
    | .judge => collect n 0
    | .runner _ => .openMy

/-- The judge and the runners in any order. -/
def stadium (n : ℕ) : System (State n) (Label n) where
  init s := s = init n
  step s l s' := l.2.1 = s.proc l.1 ∧ Step mq_maxmsg (op n) s l.1 s' l.2.2

/-- A step of process `p`, with its label. -/
def nextLabel {n : ℕ} (s : State n) (p : Proc n) : Option (State n × Label n) :=
  (next mq_maxmsg (op n) s p).map fun r => (r.1, p, s.proc p, r.2)

theorem step_of_nextLabel {n : ℕ} {s s' : State n} {p : Proc n} {l : Label n}
    (h : nextLabel s p = some (s', l)) : (stadium n).step s l s' := by
  obtain ⟨r, hnext, heq⟩ := Option.map_eq_some_iff.mp h
  cases heq
  exact ⟨rfl, step_of_next hnext⟩

/-- The process has ended. -/
def Pc.Ended : Pc → Prop
  | .exited | .returned | .died => True
  | _ => False

/-- What a step is in the race. -/
def observe {n : ℕ} : Label n → List Happening
  | (.runner i, .sendArrival, .sent _ _) => [.arrive (i + 1)]
  | (.runner i, .awaitBaton, .received _ _) => [.take (i + 1)]
  | (.runner i, .sendPass, .sent _ _) => [.pass (i + 1)]
  | (.judge, .awaitArrival _, .received _ who) => [.hear who]
  | (.judge, .sendStart, .sent _ _) => [.start]
  | (.judge, .awaitFinish, .received _ fin) => [.finish fin]
  | _ => []

/-! ### The race behind a state -/

def Pc.phase : Pc → Option Phase
  | .openMy | .openNext | .openJudge | .sendArrival => some .coming
  | .awaitBaton => some .waiting
  | .running | .sendPass => some .running
  | .exited => some .passed
  | _ => none

def Pc.judge : Pc → Option JudgePhase
  | .awaitArrival arrived => some (.collecting arrived)
  | .openFirst | .sendStart => some .starting
  | .awaitFinish => some .timing
  | .unlinkJudge | .unlinkRunner _ | .returned => some .closing
  | _ => none

/-- What is in the queues. -/
structure Posted (n : ℕ) (r : Race) (queue : Name → Queue ℕ) : Prop where
  /-- the arrivals the judge has not heard of, and then the finish -/
  mail : (queue .judge).msgs = r.sent.drop r.heard ++ if r.leg = .home then [n] else []
  batons : ∀ i, 1 ≤ i → (queue (.runner i)).msgs.length = if r.leg = .flying i then 1 else 0
  /-- the names stay until the finish -/
  linked : r.judge n ≠ .closing → ∀ k, (queue k).linked = created n k

/-- The state `s` is the race `r`. -/
structure Runs (n : ℕ) (s : State n) (r : Race) : Prop where
  good : Good n r
  runner : ∀ i : Fin n, (s.proc (.runner i)).phase = some (r.phase n (i + 1))
  judge : (s.proc .judge).judge = some (r.judge n)
  queue : Posted n r s.queue
  /-- who opens the queue of the next runner has one -/
  hasNext : ∀ i : Fin n, s.proc (.runner i) = .openNext → (i : ℕ) + 1 < n

variable {n : ℕ} {s s' : State n} {r r' : Race}

/-! ### Mail -/

theorem Posted.arrive (hq : Posted n r s.queue) (hg : Good n r) {i : ℕ} (hleg : r.leg = .ready) :
    Posted n { r with sent := r.sent ++ [i] }
      (s.put .judge ((s.queue .judge).msgs ++ [i])).queue := by
  constructor
  case mail =>
    rw [Host.put_msgs_self, hq.mail]
    simp [hleg, List.drop_append_of_le_length hg.heard_le]
  case batons =>
    intro j hj
    rw [Host.put_msgs_ne _ _ (by simp)]
    exact hq.batons j hj
  case linked =>
    intro h k
    rw [Host.put_linked]
    exact hq.linked h k

/-- The baton is sent to runner `i`. -/
theorem Posted.fly (hq : Posted n r s.queue) (hflying : ∀ j, r.leg ≠ .flying j)
    (hhome : r.leg ≠ .home) (hjudge : r.judge n ≠ .closing) {i : ℕ} (hi : 1 ≤ i) (x : ℕ) :
    Posted n { r with leg := .flying i }
      (s.put (.runner i) ((s.queue (.runner i)).msgs ++ [x])).queue := by
  constructor
  case mail =>
    rw [Host.put_msgs_ne _ _ (by simp), hq.mail]
    simp [hhome]
  case batons =>
    intro j hj
    have hold := hq.batons j hj
    rw [if_neg (hflying j)] at hold
    rcases eq_or_ne j i with rfl | hne
    · rw [Host.put_msgs_self, List.length_append, hold]
      simp
    · rw [Host.put_msgs_ne _ _ (by simpa using hne), hold]
      simp [Ne.symm hne]
  case linked =>
    intro _ k
    rw [Host.put_linked]
    exact hq.linked hjudge k

/-- The last runner sends the finish. -/
theorem Posted.goHome (hq : Posted n r s.queue) (hg : Good n r) (hleg : r.leg = .held n)
    (hjudge : r.judge n ≠ .closing) :
    Posted n { r with leg := .home } (s.put .judge ((s.queue .judge).msgs ++ [n])).queue := by
  constructor
  case mail =>
    -- the judge has heard of all arrivals
    have hlength := hg.length_le
    have hheard := hg.started (by simp [hleg])
    rw [Host.put_msgs_self, hq.mail, List.drop_eq_nil_of_le (by omega)]
    simp [hleg]
  case batons =>
    intro j hj
    rw [Host.put_msgs_ne _ _ (by simp), hq.batons j hj]
    simp [hleg]
  case linked =>
    intro _ k
    rw [Host.put_linked]
    exact hq.linked hjudge k

theorem Posted.hear (hq : Posted n r s.queue) (hg : Good n r) (hheard : r.heard < n)
    {who : ℕ} {ms : List ℕ} (hmsgs : (s.queue .judge).msgs = who :: ms) :
    r.sent[r.heard]? = some who ∧
      Posted n { r with heard := r.heard + 1 } (s.put .judge ms).queue := by
  have hleg := hg.ready hheard
  have hmail := hq.mail
  rw [hmsgs, hleg, if_neg (by simp), List.append_nil] at hmail
  refine ⟨by rw [← List.head?_drop, ← hmail]; rfl, ?_⟩
  constructor
  case mail =>
    rw [Host.put_msgs_self]
    show ms = r.sent.drop (r.heard + 1) ++ _
    rw [← List.tail_drop, ← hmail]
    simp [hleg]
  case batons =>
    intro j hj
    rw [Host.put_msgs_ne _ _ (by simp)]
    exact hq.batons j hj
  case linked =>
    intro _ k
    rw [Host.put_linked]
    exact hq.linked (by rw [show r.judge n = _ from if_pos hheard]; simp) k

theorem Posted.take (hq : Posted n r s.queue) (hg : Good n r) {i m : ℕ} (hi : 1 ≤ i)
    {ms : List ℕ} (hmsgs : (s.queue (.runner i)).msgs = m :: ms) :
    r.leg = .flying i ∧ Posted n { r with leg := .held i } (s.put (.runner i) ms).queue := by
  have hlength := hq.batons i hi
  rw [hmsgs, List.length_cons] at hlength
  have hleg : r.leg = .flying i := by
    by_contra hleg
    simp [hleg] at hlength
  refine ⟨hleg, ?_⟩
  constructor
  case mail =>
    rw [Host.put_msgs_ne _ _ (by simp), hq.mail]
    simp [hleg]
  case batons =>
    intro j hj
    rw [if_neg (by simp)]
    rcases eq_or_ne j i with rfl | hne
    · rw [Host.put_msgs_self]
      rw [if_pos hleg] at hlength
      omega
    · rw [Host.put_msgs_ne _ _ (by simpa using hne), hq.batons j hj, hleg]
      simp [Ne.symm hne]
  case linked =>
    intro _ k
    have hheard := hg.started (by simp [hleg])
    rw [Host.put_linked]
    exact hq.linked (by simp [Race.judge, hheard, hleg]) k

theorem Posted.finished (hq : Posted n r s.queue) (hg : Good n r) (hjudge : r.judge n = .timing)
    {fin : ℕ} {ms : List ℕ} (hmsgs : (s.queue .judge).msgs = fin :: ms) :
    r.leg = .home ∧ fin = n ∧
      Posted n { r with leg := .finished } (s.put .judge ms).queue := by
  have hlength := hg.length_le
  have hheard : ¬ r.heard < n := by
    intro hlt
    rw [show r.judge n = _ from if_pos hlt] at hjudge
    cases hjudge
  have hmail := hq.mail
  rw [hmsgs, List.drop_eq_nil_of_le (by omega), List.nil_append] at hmail
  have hleg : r.leg = .home := by
    by_contra hleg
    simp [hleg] at hmail
  rw [if_pos hleg, List.cons.injEq] at hmail
  obtain ⟨rfl, rfl⟩ := hmail
  refine ⟨hleg, rfl, ?_⟩
  constructor
  case mail =>
    rw [Host.put_msgs_self]
    simp [List.drop_eq_nil_of_le (show r.sent.length ≤ r.heard by omega)]
  case batons =>
    intro j hj
    rw [Host.put_msgs_ne _ _ (by simp), hq.batons j hj]
    simp [hleg]
  case linked =>
    intro h
    exact absurd (by simp [Race.judge, hheard]) h

/-- After the finish the names go. -/
theorem Posted.unlink (hq : Posted n r s.queue) (hjudge : r.judge n = .closing) (k : Name) :
    Posted n r (s.unlink k).queue := by
  refine ⟨?_, ?_, fun h => absurd hjudge h⟩
  · rw [Host.unlink_msgs]
    exact hq.mail
  · intro j hj
    rw [Host.unlink_msgs]
    exact hq.batons j hj

/-! ### One step of the program is one of the race, or none -/

theorem Runs.phase_eq (hR : Runs n s r) {i : Fin n} {pc : Pc} {ph : Phase}
    (hpc : s.proc (.runner i) = pc) (hph : pc.phase = some ph) : r.phase n (i + 1) = ph := by
  have hrunner := hR.runner i
  rw [hpc, hph] at hrunner
  exact (Option.some.inj hrunner).symm

theorem Runs.judge_eq (hR : Runs n s r) {pc : Pc} {ph : JudgePhase}
    (hpc : s.proc .judge = pc) (hph : pc.judge = some ph) : r.judge n = ph := by
  have hjudge := hR.judge
  rw [hpc, hph] at hjudge
  exact (Option.some.inj hjudge).symm

/-- A runner that has not passed the baton on finds all names. -/
theorem Runs.not_closing (hR : Runs n s r) {i : Fin n} (h : r.phase n (i + 1) ≠ .passed) :
    r.judge n ≠ .closing := fun hclosing =>
  h (hR.good.passed_of_closing hclosing ⟨by omega, by omega⟩)

/-- Runner `i` has moved. -/
theorem Runs.runner_moved (hR : Runs n s r) (hg : Good n r') {i : Fin n} {pc : Pc} {ph : Phase}
    {s₁ : State n} (hproc : s₁.proc = s.proc) (hpc : pc.phase = some ph)
    (hphase : r'.phase n = Function.update (r.phase n) (i + 1) ph)
    (hjudge : r'.judge n = r.judge n) (hq : Posted n r' s₁.queue)
    (hnext : pc = .openNext → (i : ℕ) + 1 < n) : Runs n (s₁.goto (.runner i) pc) r' := by
  refine ⟨hg, ?_, ?_, hq, ?_⟩
  · intro j
    rcases eq_or_ne j i with rfl | hne
    · rw [Host.goto_proc_self, hphase, Function.update_self, hpc]
    · rw [Host.goto_proc_ne _ _ (by simpa using hne), hproc, hphase,
        Function.update_of_ne (by simpa [Fin.ext_iff] using hne)]
      exact hR.runner j
  · rw [Host.goto_proc_ne _ _ (by simp), hproc, hjudge]
    exact hR.judge
  · intro j hj
    rcases eq_or_ne j i with rfl | hne
    · rw [Host.goto_proc_self] at hj
      exact hnext hj
    · rw [Host.goto_proc_ne _ _ (by simpa using hne), hproc] at hj
      exact hR.hasNext j hj

/-- Runner `i` has moved to another place of the same phase. -/
theorem Runs.runner_stayed (hR : Runs n s r) {i : Fin n} {pc pc' : Pc} {ph : Phase}
    (hpc : s.proc (.runner i) = pc) (hph : pc.phase = some ph) (hph' : pc'.phase = some ph)
    (hnext : pc' = .openNext → (i : ℕ) + 1 < n) : Runs n (s.goto (.runner i) pc') r := by
  apply hR.runner_moved hR.good rfl hph' _ rfl hR.queue hnext
  rw [← hR.phase_eq hpc hph, Function.update_eq_self]

/-- The judge has moved. -/
theorem Runs.judge_moved (hR : Runs n s r) (hg : Good n r') {pc : Pc} {s₁ : State n}
    (hproc : s₁.proc = s.proc) (hphase : r'.phase n = r.phase n)
    (hjudge : pc.judge = some (r'.judge n)) (hq : Posted n r' s₁.queue) :
    Runs n (s₁.goto .judge pc) r' := by
  refine ⟨hg, ?_, ?_, hq, ?_⟩
  · intro j
    rw [Host.goto_proc_ne _ _ (by simp), hproc, hphase]
    exact hR.runner j
  · rw [Host.goto_proc_self]
    exact hjudge
  · intro j hj
    rw [Host.goto_proc_ne _ _ (by simp), hproc] at hj
    exact hR.hasNext j hj

theorem op_runner {i : Fin n} {pc : Pc} (hpc : s.proc (.runner i) = pc) :
    op n (.runner i) (s.proc (.runner i)) = runner_proc (i + 1) n pc := by
  rw [hpc]
  rfl

theorem op_judge {pc : Pc} (hpc : s.proc .judge = pc) :
    op n .judge (s.proc .judge) = main n pc := by
  rw [hpc]
  rfl

theorem runner_step (hn : 1 ≤ n) (hR : Runs n s r) {i : Fin n} {call : Call ℕ Name}
    (h : Step mq_maxmsg (op n) s (.runner i) s' call) :
    (∀ k, call.used = some k → (s.queue k).linked = true) ∧
    ∃ r', (race n).Run r (observe (.runner i, s.proc (.runner i), call)) r' ∧ Runs n s' r' := by
  have hi : 1 ≤ (i : ℕ) + 1 ∧ (i : ℕ) + 1 ≤ n := ⟨by omega, by omega⟩
  have hlinked : r.phase n (i + 1) ≠ .passed → ∀ k, created n k = true →
      (s.queue k).linked = true := by
    intro hphase k hk
    rw [hR.queue.linked (hR.not_closing hphase), hk]
  have hown : created n (.runner (i + 1)) = true := decide_eq_true hi
  cases hpc : s.proc (.runner i) with
  | openMy =>
    have hl := hlinked (by rw [hR.phase_eq hpc rfl]; decide)
    obtain ⟨rfl, rfl⟩ := h.of_open (op_runner hpc) (hl _ hown)
    refine ⟨fun k hk => ?_, r, .nil r, ?_⟩
    · cases hk
      exact hl _ hown
    · apply hR.runner_stayed hpc rfl
      · show Pc.phase (ite _ _ _) = _
        split <;> rfl
      · show ite _ _ _ = _ → _
        split
        · next hlt => exact fun _ => hlt
        · rintro ⟨⟩
  | openNext =>
    have hl := hlinked (by rw [hR.phase_eq hpc rfl]; decide)
    have hlt := hR.hasNext i hpc
    have hnext : created n (.runner (i + 1 + 1)) = true := decide_eq_true ⟨by omega, by omega⟩
    obtain ⟨rfl, rfl⟩ := h.of_open (op_runner hpc) (hl _ hnext)
    refine ⟨fun k hk => ?_, r, .nil r, hR.runner_stayed hpc rfl rfl (by rintro ⟨⟩)⟩
    cases hk
    exact hl _ hnext
  | openJudge =>
    have hl := hlinked (by rw [hR.phase_eq hpc rfl]; decide)
    obtain ⟨rfl, rfl⟩ := h.of_open (op_runner hpc) (hl .judge rfl)
    refine ⟨fun k hk => ?_, r, .nil r, hR.runner_stayed hpc rfl rfl (by rintro ⟨⟩)⟩
    cases hk
    exact hl .judge rfl
  | sendArrival =>
    have hphase := hR.phase_eq hpc rfl
    have hl := hlinked (by rw [hphase]; decide)
    obtain ⟨rfl, rfl⟩ := h.of_send (op_runner hpc)
    have hmem := notMem_of_coming hphase
    have hstep : (race n).step r (.arrive (i + 1)) { r with sent := r.sent ++ [(i : ℕ) + 1] } :=
      ⟨hi.1, hi.2, hmem, rfl⟩
    obtain ⟨hphase', hjudge'⟩ := phase_arrive hR.good hstep
    refine ⟨fun k hk => ?_, _, .single hstep, hR.runner_moved (hR.good.step hn hstep) rfl rfl hphase'
      hjudge' (hR.queue.arrive hR.good (hR.good.ready_of_coming hi hmem)) (by rintro ⟨⟩)⟩
    cases hk
    exact hl .judge rfl
  | awaitBaton =>
    have hl := hlinked (by rw [hR.phase_eq hpc rfl]; decide)
    obtain ⟨m, ms, hmsgs, rfl, rfl⟩ := h.of_receive (op_runner hpc)
    obtain ⟨hleg, hq'⟩ := hR.queue.take hR.good hi.1 hmsgs
    have hstep : (race n).step r (.take (i + 1)) { r with leg := .held (i + 1) } := ⟨hleg, rfl⟩
    obtain ⟨-, hphase', hjudge'⟩ := phase_take hR.good hstep
    refine ⟨fun k hk => ?_, _, .single hstep, hR.runner_moved (hR.good.step hn hstep) rfl rfl hphase'
      hjudge' hq' (by rintro ⟨⟩)⟩
    cases hk
    exact hl _ hown
  | running =>
    obtain ⟨rfl, rfl⟩ := h.of_compute (op_runner hpc)
    refine ⟨fun k hk => ?_, r, .nil r, hR.runner_stayed hpc rfl rfl (by rintro ⟨⟩)⟩
    cases hk
  | sendPass =>
    have hphase := hR.phase_eq hpc rfl
    have hpassed : r.phase n (i + 1) ≠ .passed := by rw [hphase]; decide
    have hl := hlinked hpassed
    obtain ⟨rfl, rfl⟩ := h.of_send (op_runner hpc)
    have hleg := leg_of_running hphase
    have hstep : (race n).step r (.pass (i + 1)) _ := ⟨hleg, rfl⟩
    obtain ⟨hphase', hjudge'⟩ := phase_pass hR.good hstep
    refine ⟨fun k hk => ?_, _, .single hstep, hR.runner_moved (hR.good.step hn hstep) rfl rfl hphase'
      hjudge' ?_ (by rintro ⟨⟩)⟩
    · cases hk
      split
      · next hlt => exact hl _ (decide_eq_true ⟨by omega, by omega⟩)
      · exact hl .judge rfl
    · by_cases hlt : (i : ℕ) + 1 < n
      · simp only [hlt, ↓reduceIte]
        exact hR.queue.fly (by simp [hleg]) (by simp [hleg]) (hR.not_closing hpassed) (by omega) _
      · have heq : (i : ℕ) + 1 = n := by omega
        simp only [hlt, ↓reduceIte]
        rw [heq] at hleg ⊢
        exact hR.queue.goHome hR.good hleg (hR.not_closing hpassed)
  | exited | died => exact absurd (op_runner hpc) h.of_halt
  | awaitArrival | openFirst | sendStart | awaitFinish | unlinkJudge | unlinkRunner | returned =>
    have hrunner := hR.runner i
    rw [hpc] at hrunner
    cases hrunner

theorem collect_judge (n arrived : ℕ) : (collect n arrived).judge =
    some (if arrived < n then .collecting arrived else .starting) := by
  unfold collect
  split <;> rfl

theorem unlinkFrom_judge (n i : ℕ) : (unlinkFrom n i).judge = some .closing := by
  unfold unlinkFrom
  split <;> rfl

theorem judge_step (hn : 1 ≤ n) (hR : Runs n s r) {call : Call ℕ Name}
    (h : Step mq_maxmsg (op n) s .judge s' call) :
    (∀ k, call.used = some k → (s.queue k).linked = true) ∧
    ∃ r', (race n).Run r (observe ((.judge, s.proc .judge, call) : Label n)) r' ∧
      Runs n s' r' := by
  have hlinked : r.judge n ≠ .closing → ∀ k, created n k = true → (s.queue k).linked = true := by
    intro hjudge k hk
    rw [hR.queue.linked hjudge, hk]
  have hfirst : created n (.runner 1) = true := decide_eq_true ⟨le_rfl, hn⟩
  cases hpc : s.proc .judge with
  | awaitArrival arrived =>
    have hjudge := hR.judge_eq hpc rfl
    have hl := hlinked (by rw [hjudge]; simp)
    obtain ⟨who, ms, hmsgs, rfl, rfl⟩ := h.of_receive (op_judge hpc)
    obtain ⟨rfl, hheard⟩ := heard_of_collecting hjudge
    obtain ⟨hget, hq'⟩ := hR.queue.hear hR.good hheard hmsgs
    have hstep : (race n).step r (.hear who) { r with heard := r.heard + 1 } := ⟨hget, rfl⟩
    obtain ⟨hphase', -, hjudge'⟩ := phase_hear hR.good hstep
    refine ⟨fun k hk => ?_, _, .single hstep, hR.judge_moved (hR.good.step hn hstep) rfl hphase' ?_ hq'⟩
    · cases hk
      exact hl .judge rfl
    · rw [hjudge']
      exact collect_judge n _
  | openFirst =>
    have hl := hlinked (by rw [hR.judge_eq hpc rfl]; decide)
    obtain ⟨rfl, rfl⟩ := h.of_open (op_judge hpc) (hl _ hfirst)
    refine ⟨fun k hk => ?_, r, .nil r, hR.judge_moved hR.good rfl rfl ?_ hR.queue⟩
    · cases hk
      exact hl _ hfirst
    · rw [hR.judge_eq hpc rfl]
      rfl
  | sendStart =>
    have hjudge := hR.judge_eq hpc rfl
    have hclosing : r.judge n ≠ .closing := by rw [hjudge]; decide
    have hl := hlinked hclosing
    obtain ⟨rfl, rfl⟩ := h.of_send (op_judge hpc)
    obtain ⟨hheard, hleg⟩ := ready_of_starting hR.good hjudge
    have hstep : (race n).step r .start { r with leg := .flying 1 } := ⟨hheard, hleg, rfl⟩
    obtain ⟨hphase', hjudge'⟩ := phase_start hstep
    refine ⟨fun k hk => ?_, _, .single hstep, hR.judge_moved (hR.good.step hn hstep) rfl hphase' ?_
      (hR.queue.fly (by simp [hleg]) (by simp [hleg]) hclosing le_rfl 1)⟩
    · cases hk
      exact hl _ hfirst
    · rw [hjudge']
      rfl
  | awaitFinish =>
    have hjudge := hR.judge_eq hpc rfl
    have hl := hlinked (by rw [hjudge]; decide)
    obtain ⟨fin, ms, hmsgs, rfl, rfl⟩ := h.of_receive (op_judge hpc)
    obtain ⟨hleg, hfin, hq'⟩ := hR.queue.finished hR.good hjudge hmsgs
    have hstep : (race n).step r (.finish fin) { r with leg := .finished } := ⟨hfin, hleg, rfl⟩
    obtain ⟨hphase', -, hjudge'⟩ := phase_finish hR.good hstep
    refine ⟨fun k hk => ?_, _, .single hstep, hR.judge_moved (hR.good.step hn hstep) rfl hphase' ?_ hq'⟩
    · cases hk
      exact hl .judge rfl
    · rw [hjudge']
      rfl
  | unlinkJudge =>
    have hjudge := hR.judge_eq hpc rfl
    obtain ⟨rfl, rfl⟩ := h.of_unlink (op_judge hpc)
    refine ⟨fun k hk => ?_, r, .nil r, hR.judge_moved hR.good rfl rfl ?_ (hR.queue.unlink hjudge _)⟩
    · cases hk
    · rw [hjudge]
      exact unlinkFrom_judge n 1
  | unlinkRunner i =>
    have hjudge := hR.judge_eq hpc rfl
    obtain ⟨rfl, rfl⟩ := h.of_unlink (op_judge hpc)
    refine ⟨fun k hk => ?_, r, .nil r, hR.judge_moved hR.good rfl rfl ?_ (hR.queue.unlink hjudge _)⟩
    · cases hk
    · rw [hjudge]
      exact unlinkFrom_judge n (i + 1)
  | returned | died => exact absurd (op_judge hpc) h.of_halt
  | openMy | openNext | openJudge | sendArrival | awaitBaton | running | sendPass | exited =>
    have hjudge := hR.judge
    rw [hpc] at hjudge
    cases hjudge

/-- **Simulation**: every call uses a queue that has its name, and every step is
    one of the race or is not seen there. -/
theorem Runs.step (hn : 1 ≤ n) (hR : Runs n s r) {l : Label n} (h : (stadium n).step s l s') :
    (∀ k, l.2.2.used = some k → (s.queue k).linked = true) ∧
    ∃ r', (race n).Run r (observe l) r' ∧ Runs n s' r' := by
  obtain ⟨p, pc, call⟩ := l
  obtain ⟨hpc, h⟩ := h
  change pc = s.proc p at hpc
  subst hpc
  cases p with
  | judge => exact judge_step hn hR h
  | runner i => exact runner_step hn hR h

theorem runs_init (hn : 1 ≤ n) : Runs n (init n) ⟨[], 0, .ready⟩ := by
  refine ⟨good hn (.init rfl), fun i => ?_, ?_, ⟨rfl, fun i _ => by simp [init], fun _ _ => rfl⟩, ?_⟩
  · simp [init, Pc.phase, Race.phase]
  · show (collect n 0).judge = some (ite _ _ _)
    rw [collect_judge, if_pos (show 0 < n from hn)]
  · intro i hi
    cases hi

theorem stadium_simulation (hn : 1 ≤ n) : Simulation (stadium n) (race n) observe (Runs n) where
  init := by
    rintro _ rfl
    exact ⟨_, rfl, runs_init hn⟩
  step _ _ _ _ hR h := (hR.step hn h).2

/-! ### Progress -/

theorem pc_of_phase {pc : Pc} {ph : Phase} (h : pc.phase = some ph) :
    match ph with
    | .coming => pc = .openMy ∨ pc = .openNext ∨ pc = .openJudge ∨ pc = .sendArrival
    | .waiting => pc = .awaitBaton
    | .running => pc = .running ∨ pc = .sendPass
    | .passed => pc = .exited := by
  cases pc <;> cases h <;> simp

theorem pc_of_judge {pc : Pc} {ph : JudgePhase} (h : pc.judge = some ph) :
    match ph with
    | .collecting arrived => pc = .awaitArrival arrived
    | .starting => pc = .openFirst ∨ pc = .sendStart
    | .timing => pc = .awaitFinish
    | .closing => pc = .unlinkJudge ∨ (∃ i, pc = .unlinkRunner i) ∨ pc = .returned := by
  cases pc <;> cases h <;> simp

/-- Where nobody can move, the judge has no mail. -/
theorem Runs.no_mail (hR : Runs n s r) (hquiet : ∀ p, next mq_maxmsg (op n) s p = none) :
    (s.queue .judge).msgs = [] := by
  by_contra hne
  have hmail := hR.queue.mail
  have hlength := hR.good.length_le
  by_cases hheard : r.heard < n
  · have hpc : s.proc .judge = .awaitArrival r.heard :=
      pc_of_judge (show _ = some (JudgePhase.collecting r.heard) by
        rw [hR.judge, Race.judge, if_pos hheard])
    exact hne (msgs_of_next_eq_none (hquiet _) (op_judge hpc))
  · rw [List.drop_eq_nil_of_le (by omega), List.nil_append] at hmail
    have hleg : r.leg = .home := by
      by_contra hleg
      rw [if_neg hleg] at hmail
      exact hne hmail
    have hpc : s.proc .judge = .awaitFinish :=
      pc_of_judge (show _ = some JudgePhase.timing by
        rw [hR.judge, Race.judge, if_neg hheard, hleg])
    exact hne (msgs_of_next_eq_none (hquiet _) (op_judge hpc))

/-- Where nobody can move, everybody has ended. -/
theorem Runs.ended_of_quiet (hR : Runs n s r)
    (hquiet : ∀ p, next mq_maxmsg (op n) s p = none) (p : Proc n) : (s.proc p).Ended := by
  have hmail := hR.no_mail hquiet
  -- a queue that is not full stops nobody
  have hjudge_full : ¬ mq_maxmsg ≤ (s.queue .judge).msgs.length := by
    rw [hmail]
    decide
  have hrunner_full : ∀ i, 1 ≤ i → ¬ mq_maxmsg ≤ (s.queue (.runner i)).msgs.length := by
    intro i hi
    rw [hR.queue.batons i hi]
    split <;> decide
  rcases hR.good.next with ⟨i, hi, hphase⟩ | ⟨hlt, hjudge⟩ | hjudge | ⟨i, hi, hleg, hphase⟩ |
    ⟨i, hi, hphase⟩ | ⟨hleg, hjudge⟩ | hleg
  -- `i` has yet to arrive
  · obtain ⟨i, rfl⟩ := Nat.exists_eq_add_of_le' hi.1
    rcases pc_of_phase (hphase ▸ hR.runner ⟨i, hi.2⟩) with hpc | hpc | hpc | hpc
    · exact absurd (hquiet _) (next_open (op_runner hpc))
    · exact absurd (hquiet _) (next_open (op_runner hpc))
    · exact absurd (hquiet _) (next_open (op_runner hpc))
    · exact absurd (full_of_next_eq_none (hquiet _) (op_runner hpc)) hjudge_full
  -- there is an arrival to hear of
  · rw [hR.queue.mail, List.append_eq_nil_iff, List.drop_eq_nil_iff] at hmail
    omega
  · rcases pc_of_judge (hjudge ▸ hR.judge) with hpc | hpc
    · exact absurd (hquiet _) (next_open (op_judge hpc))
    · exact absurd (full_of_next_eq_none (hquiet _) (op_judge hpc)) (hrunner_full 1 le_rfl)
  -- the baton is on its way
  · obtain ⟨i, rfl⟩ := Nat.exists_eq_add_of_le' hi.1
    have hpc : s.proc (.runner ⟨i, hi.2⟩) = .awaitBaton :=
      pc_of_phase (hphase ▸ hR.runner ⟨i, hi.2⟩)
    have hlength := hR.queue.batons (i + 1) hi.1
    rw [msgs_of_next_eq_none (hquiet _) (op_runner hpc), if_pos hleg] at hlength
    cases hlength
  -- `i` has the baton
  · obtain ⟨i, rfl⟩ := Nat.exists_eq_add_of_le' hi.1
    rcases pc_of_phase (hphase ▸ hR.runner ⟨i, hi.2⟩) with hpc | hpc
    · have hnone := hquiet (.runner ⟨i, hi.2⟩)
      simp [next, op_runner hpc, runner_proc] at hnone
    · have hfull := full_of_next_eq_none (hquiet _) (op_runner hpc)
      split at hfull
      · exact absurd hfull (hrunner_full _ (by omega))
      · exact absurd hfull hjudge_full
  -- the finish is on its way
  · rw [hR.queue.mail, if_pos hleg, List.append_eq_nil_iff] at hmail
    cases hmail.2
  · have hclosing := hR.good.closing_of_finished hleg
    cases p with
    | judge =>
      rcases pc_of_judge (hclosing ▸ hR.judge) with hpc | ⟨i, hpc⟩ | hpc
      · have hnone := hquiet .judge
        simp [next, op_judge hpc, main] at hnone
      · have hnone := hquiet .judge
        simp [next, op_judge hpc, main] at hnone
      · rw [hpc]
        trivial
    | runner i =>
      have hphase := hR.good.passed_of_closing hclosing (i := i + 1) ⟨by omega, by omega⟩
      have hpc : s.proc (.runner i) = .exited := pc_of_phase (hphase ▸ hR.runner i)
      rw [hpc]
      trivial

/-! ### Results -/

/-- A runner that has the baton. -/
def Pc.hasBaton : Pc → Bool
  | .running | .sendPass => true
  | _ => false

/-- The batons in the queues of the runners and in their hands. -/
def batons (s : State n) : ℕ :=
  ∑ i : Fin n, (s.queue (.runner (i + 1))).msgs.length +
    (Finset.univ.filter fun i => (s.proc (.runner i)).hasBaton).card

theorem hasBaton_iff {pc : Pc} {ph : Phase} (h : pc.phase = some ph) :
    pc.hasBaton ↔ ph = .running := by
  cases pc <;> cases h <;> simp [Pc.hasBaton]

theorem Posted.sum_le (hq : Posted n r s.queue) :
    ∑ i : Fin n, (s.queue (.runner (i + 1))).msgs.length ≤ if r.leg.isFlying then 1 else 0 := by
  have hterm : ∀ i : Fin n, (s.queue (.runner (i + 1))).msgs.length =
      if r.leg = .flying (i + 1) then 1 else 0 := fun i => hq.batons _ (by omega)
  simp only [hterm, Finset.sum_boole, Nat.cast_id]
  cases hleg : r.leg with
  | flying i =>
    show _ ≤ 1
    rw [Finset.card_le_one]
    intro j hj k hk
    have hj := (Finset.mem_filter.mp hj).2
    have hk := (Finset.mem_filter.mp hk).2
    rw [hj, Leg.flying.injEq, Nat.add_right_cancel_iff] at hk
    exact Fin.ext hk
  | ready | held | home | finished => simp

theorem Runs.batons_le (hR : Runs n s r) : batons s ≤ 1 := by
  have hholders : (Finset.univ.filter fun i => (s.proc (.runner i)).hasBaton) =
      Finset.univ.filter fun i : Fin n => r.phase n (i + 1) = .running :=
    Finset.filter_congr fun i _ => hasBaton_iff (hR.runner i)
  have hcard := card_running_le n r
  have hsum := hR.queue.sum_le
  unfold batons
  rw [hholders]
  cases hflying : r.leg.isFlying <;> rw [hflying] at hcard hsum
  · exact Nat.add_le_add hsum hcard
  · exact Nat.add_le_add hsum hcard

theorem closing_of_ended {pc : Pc} {ph : JudgePhase} (h : pc.judge = some ph) (hend : pc.Ended) :
    ph = .closing := by
  cases pc <;> cases h <;> first | rfl | cases hend

/-- A call on a queue whose name has been taken away, or was never there. -/
def misuse (s : State n) (l : Label n) : Prop :=
  ∃ k, l.2.2.used = some k ∧ (s.queue k).linked = false

/-- All processes have ended. -/
def Ended (s : State n) : Prop := ∀ p, (s.proc p).Ended

/-- **The race over named queues**. -/
theorem stadium_race (hn : 1 ≤ n) : IsRelay n (stadium n) observe misuse batons Ended := by
  have hsim := stadium_simulation hn
  constructor
  case orderly =>
    rintro _ ls s rfl hrun
    obtain ⟨r, hrace, -⟩ := hsim.run hrun (runs_init hn)
    exact orderly hn hrace
  case no_misuse =>
    rintro s l s' hs hl ⟨k, hk, hgone⟩
    obtain ⟨r, -, hR⟩ := hsim.reachable hs
    rw [(hR.step hn hl).1 k hk] at hgone
    cases hgone
  case one_baton =>
    intro s hs
    obtain ⟨r, -, hR⟩ := hsim.reachable hs
    exact hR.batons_le
  case not_stuck =>
    intro s hs hended
    obtain ⟨r, -, hR⟩ := hsim.reachable hs
    by_contra hnone
    apply hended
    apply hR.ended_of_quiet
    intro p
    cases hnext : next mq_maxmsg (op n) s p with
    | none => rfl
    | some result => exact absurd ⟨(p, s.proc p, result.2), result.1, rfl, step_of_next hnext⟩ hnone
  case complete =>
    rintro _ ls s rfl hrun hended
    obtain ⟨r, hrace, hR⟩ := hsim.run hrun (runs_init hn)
    apply handovers_of_finished hn hrace
    apply finished_of_closing
    exact closing_of_ended hR.judge (hended .judge)

end Relay.Posix
