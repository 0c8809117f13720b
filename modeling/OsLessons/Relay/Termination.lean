import OsLessons.Relay.SysV
import OsLessons.Relay.Posix

/-! # Both relay races, run to their end

  The two programs route their messages differently and are the same race
  (`relay_race`).

  No process repeats a call, so every step takes one of them closer to its end.
  What is left then: all runners have passed the baton on, the judge has
  returned, and no queue is left behind (`races_end`).
-/

namespace Relay

open Lts

variable {n : ℕ}

/-- The processes are the judge and the runners. -/
theorem sum_procs (f : Proc n → ℕ) : ∑ p, f p = f .judge + ∑ i, f (.runner i) := by
  have hsum := (Equiv.sum_comp (Equiv.ofBijective (fun o : Option (Fin n) =>
    o.elim Proc.judge Proc.runner) ⟨?_, ?_⟩) f).symm
  · rw [hsum, Fintype.sum_option]
    rfl
  · intro o o' ho
    cases o <;> cases o' <;> cases ho <;> rfl
  · intro p
    cases p with
    | judge => exact ⟨none, rfl⟩
    | runner i => exact ⟨some i, rfl⟩

/-! ### One SysV queue -/

namespace SysV

open MsgQueue

/-- The calls that are left. -/
def Pc.left (n : ℕ) : Pc → ℕ
  | .sendArrival => 4
  | .awaitBaton => 3
  | .running => 2
  | .sendPass => 1
  | .awaitArrival arrived => max 1 (n - arrived) + 3
  | .sendStart => 3
  | .awaitFinish => 2
  | .remove => 1
  | .exited | .returned | .died => 0

theorem left_orDie (pc : Pc) (ok : Bool) : (orDie pc ok).left n ≤ pc.left n := by
  cases ok
  · exact Nat.zero_le _
  · exact le_rfl

theorem left_collect (arrived : ℕ) :
    (collect n (arrived + 1)).left n < (Pc.awaitArrival arrived).left n := by
  unfold collect
  split
  · show max 1 (n - (arrived + 1)) + 3 < max 1 (n - arrived) + 3
    omega
  · show 3 < max 1 (n - arrived) + 3
    omega

theorem pays_msgsnd {m : msg} {l pc : Pc} (h : l.left n < pc.left n) :
    (Op.msgsnd m (orDie l)).Pays (Pc.left n) (fun _ => 0) pc :=
  ⟨(left_orDie l true).trans_lt h, (left_orDie l false).trans_lt h⟩

theorem pays_msgrcv {t : ℕ} {l pc : Pc} (h : l.left n < pc.left n) :
    (Op.msgrcv t false fun r : Option msg => orDie l r.isSome).Pays (Pc.left n) (fun _ => 0) pc :=
  ⟨fun _ => (left_orDie l true).trans_lt h, (left_orDie l false).trans_lt h⟩

theorem op_pays (p : Proc n) (pc : Pc) : (op n p pc).Pays (Pc.left n) (fun _ => 0) pc := by
  cases p with
  | judge =>
    cases pc with
    | awaitArrival arrived => exact pays_msgrcv (left_collect arrived)
    | sendStart => exact pays_msgsnd (by decide : 2 < 3)
    | awaitFinish => exact pays_msgrcv (by decide : 1 < 2)
    | remove => exact Nat.zero_lt_one
    | sendArrival | awaitBaton | running | sendPass | exited | returned | died => trivial
  | runner i =>
    cases pc with
    | sendArrival => exact pays_msgsnd (by decide : 3 < 4)
    | awaitBaton => exact pays_msgrcv (by decide : 2 < 3)
    | running => exact (by decide : 1 < 2)
    | sendPass => exact pays_msgsnd (by decide : 0 < 1)
    | awaitArrival | sendStart | awaitFinish | remove | exited | returned | died => trivial

theorem run_le {cap : Option ℕ} (hn : 1 ≤ n) {ls : List (Label n)} {s : State n}
    (h : (stadium n cap).Run (init n) ls s) : ls.length ≤ 5 * n + 3 := by
  have hdown : ∀ (s : State n) (l : Label n) (s' : State n), (stadium n cap).Reachable s →
      (stadium n cap).step s l s' → weight (Pc.left n) (fun _ => 0) Finset.univ s' <
        weight (Pc.left n) (fun _ => 0) Finset.univ s := by
    intro s l s' _ hstep
    exact hstep.2.weight_lt _ _ (Finset.mem_univ _) (op_pays _ _)
  have hlen := h.length_le _ hdown (.init rfl)
  have hinit : weight (Pc.left n) (fun _ => 0) Finset.univ (init n) = n + 3 + n * 4 := by
    unfold weight
    rw [sum_procs]
    have hcollect : (collect n 0).left n = n + 3 := by
      unfold collect
      rw [if_pos (show 0 < n from hn)]
      show max 1 (n - 0) + 3 = n + 3
      omega
    have hjudge : ((init n).proc .judge).left n = n + 3 := hcollect
    have hrunner : ∀ i, ((init n).proc (.runner i)).left n = 4 := fun _ => rfl
    have hqueue : (((init n).queue.getD []).map fun _ => 0).sum = 0 := rfl
    simp only [hjudge, hrunner, hqueue, Finset.sum_const, Finset.card_univ, Fintype.card_fin,
      smul_eq_mul, add_zero]
  omega

theorem orDie_ne_returned {pc : Pc} (h : pc ≠ .returned) (ok : Bool) :
    orDie pc ok ≠ .returned := by
  cases ok
  · exact Pc.noConfusion
  · exact h

/-- The judge removes the queue before it returns. -/
theorem removed {cap : Option ℕ} {s : State n} (h : (stadium n cap).Reachable s) :
    s.proc .judge = .returned → s.queue = none := by
  induction h with
  | init hs =>
    cases hs
    intro hjudge
    change collect n 0 = .returned at hjudge
    unfold collect at hjudge
    split at hjudge <;> cases hjudge
  | @step s l s' _ hstep ih =>
    obtain ⟨p, pc, call⟩ := l
    obtain ⟨-, hstep⟩ := hstep
    change Step msg.mtype cap (op n) s p s' call at hstep
    intro hjudge
    have hstays : s.queue = none → s'.queue = none := by
      intro hnone
      cases hstep with
      | sent _ hq | received _ hq => cases hnone.symm.trans hq
      | enomsg | not_sent | not_received | wrote | computed => exact hnone
      | removed => rfl
    cases p with
    | runner i =>
      rw [hstep.frame (by simp)] at hjudge
      exact hstays (ih hjudge)
    | judge =>
      cases hpc : s.proc .judge with
      | remove =>
        obtain ⟨-, rfl⟩ := hstep.of_rmid (op_judge hpc)
        rfl
      | returned => exact hstays (ih hpc)
      | awaitArrival arrived =>
        have hcollect : collect n (arrived + 1) ≠ .returned := by
          unfold collect
          split <;> exact Pc.noConfusion
        have hthen : (op n .judge (s.proc .judge)).Then (· ≠ .returned) := by
          rw [op_judge hpc]
          exact fun r => orDie_ne_returned hcollect _
        exact absurd hjudge (hstep.then hthen)
      | sendStart =>
        have hthen : (op n .judge (s.proc .judge)).Then (· ≠ .returned) := by
          rw [op_judge hpc]
          exact orDie_ne_returned Pc.noConfusion
        exact absurd hjudge (hstep.then hthen)
      | awaitFinish =>
        have hthen : (op n .judge (s.proc .judge)).Then (· ≠ .returned) := by
          rw [op_judge hpc]
          exact fun r => orDie_ne_returned Pc.noConfusion _
        exact absurd hjudge (hstep.then hthen)
      | sendArrival | awaitBaton | running | sendPass | exited | died =>
        exact absurd (op_judge hpc) hstep.of_halt

/-- Everybody has ended without an error, and the queue is gone. -/
structure Home (s : State n) : Prop where
  runners : ∀ i, s.proc (.runner i) = .exited
  judge : s.proc .judge = .returned
  queue : s.queue = none

theorem Runs.home {cap : Option ℕ} {s : State n} {r : Race} (hR : Runs n s r) (hended : Ended s)
    (h : (stadium n cap).Reachable s) : Home s := by
  have hclosing := closing_of_ended hR.judge (hended .judge)
  have hjudge : s.proc .judge = .returned := by
    have hpc : s.proc .judge = .remove ∨ s.proc .judge = .returned :=
      pc_of_judge (hclosing ▸ hR.judge)
    rcases hpc with hpc | hpc
    · have hend := hended .judge
      rw [hpc] at hend
      exact hend.elim
    · exact hpc
  refine ⟨fun i => ?_, hjudge, removed h hjudge⟩
  have hphase := hR.good.passed_of_closing hclosing (i := i + 1) ⟨by omega, by omega⟩
  exact pc_of_phase (hphase ▸ hR.runner i)

end SysV

/-! ### POSIX queues -/

namespace Posix

open NamedQueue

/-- The calls that are left; the last runner does not open a queue of a next
    one. -/
def left (n : ℕ) : Proc n → Pc → ℕ
  | .runner i, .openMy => if (i : ℕ) + 1 < n then 7 else 6
  | .runner _, .openNext => 6
  | .runner _, .openJudge => 5
  | .runner _, .sendArrival => 4
  | .runner _, .awaitBaton => 3
  | .runner _, .running => 2
  | .runner _, .sendPass => 1
  | .judge, .awaitArrival arrived => max 1 (n - arrived) + (n + 4)
  | .judge, .openFirst => n + 4
  | .judge, .sendStart => n + 3
  | .judge, .awaitFinish => n + 2
  | .judge, .unlinkJudge => n + 1
  | .judge, .unlinkRunner i => max 1 (n + 1 - i)
  | _, _ => 0

theorem left_orDie {p : Proc n} {pc : Pc} {m : ℕ} (h : left n p pc < m) (ok : Bool) :
    left n p (orDie pc ok) < m := by
  cases ok
  · have hdied : left n p .died = 0 := by cases p <;> rfl
    show left n p .died < m
    omega
  · exact h

theorem left_unlinkFrom (i : ℕ) : left n .judge (unlinkFrom n i) ≤ n + 1 - i := by
  unfold unlinkFrom
  split
  · show max 1 (n + 1 - i) ≤ n + 1 - i
    omega
  · exact Nat.zero_le _

theorem judge_then (pc : Pc) : (main n pc).Then fun l => left n .judge l < left n .judge pc := by
  cases pc with
  | awaitArrival arrived =>
    intro who
    show left n .judge (collect n (arrived + 1)) < max 1 (n - arrived) + (n + 4)
    unfold collect
    split
    · show max 1 (n - (arrived + 1)) + (n + 4) < _
      omega
    · show n + 4 < _
      omega
  | openFirst => exact left_orDie (Nat.lt_succ_self (n + 3))
  | sendStart => exact Nat.lt_succ_self (n + 2)
  | awaitFinish => exact fun _ => Nat.lt_succ_self (n + 1)
  | unlinkJudge =>
    have hle := left_unlinkFrom (n := n) 1
    show left n .judge (unlinkFrom n 1) < n + 1
    omega
  | unlinkRunner i =>
    have hle := left_unlinkFrom (n := n) (i + 1)
    show left n .judge (unlinkFrom n (i + 1)) < max 1 (n + 1 - i)
    omega
  | openMy | openNext | openJudge | sendArrival | awaitBaton | running | sendPass | exited
  | returned | died => trivial

theorem runner_then (i : Fin n) (pc : Pc) :
    (runner_proc (i + 1) n pc).Then fun l => left n (.runner i) l < left n (.runner i) pc := by
  cases pc with
  | openMy =>
    apply left_orDie
    show _ < ite _ _ _
    split
    · exact (by decide : 6 < 7)
    · exact (by decide : 5 < 6)
  | openNext => exact left_orDie (by decide : 5 < 6)
  | openJudge => exact left_orDie (by decide : 4 < 5)
  | sendArrival => exact (by decide : 3 < 4)
  | awaitBaton => exact fun _ => (by decide : 2 < 3)
  | running => exact (by decide : 1 < 2)
  | sendPass => exact (by decide : 0 < 1)
  | awaitArrival | openFirst | sendStart | awaitFinish | unlinkJudge | unlinkRunner | exited
  | returned | died => trivial

theorem run_le (hn : 1 ≤ n) {ls : List (Label n)} {s : State n}
    (h : (stadium n).Run (init n) ls s) : ls.length ≤ 9 * n + 3 := by
  have hdown : ∀ (s : State n) (l : Label n) (s' : State n), (stadium n).Reachable s →
      (stadium n).step s l s' → ∑ p, left n p (s'.proc p) < ∑ p, left n p (s.proc p) := by
    intro s l s' _ hstep
    apply hstep.2.sum_lt
    cases l.1 with
    | judge => exact judge_then _
    | runner i => exact runner_then i _
  have hlen := h.length_le _ hdown (.init rfl)
  have hinit : ∑ p, left n p ((init n).proc p) ≤ 9 * n + 3 := by
    rw [sum_procs]
    have hcollect : left n .judge (collect n 0) = 2 * n + 4 := by
      unfold collect
      rw [if_pos (show 0 < n from hn)]
      show max 1 (n - 0) + (n + 4) = 2 * n + 4
      omega
    have hjudge : left n .judge ((init n).proc .judge) = 2 * n + 4 := hcollect
    -- the last runner has one call less than the others
    have hrunners : ∑ i : Fin n, left n (.runner i) ((init n).proc (.runner i)) + 1 ≤ n * 7 := by
      have hlt : ∑ i : Fin n, left n (.runner i) ((init n).proc (.runner i)) < ∑ _ : Fin n, 7 := by
        apply Finset.sum_lt_sum
        · intro i _
          show ite _ _ _ ≤ 7
          split <;> decide
        · refine ⟨⟨n - 1, by omega⟩, Finset.mem_univ _, ?_⟩
          show ite _ _ _ < 7
          rw [if_neg (by simp; omega)]
          decide
      simpa using hlt
    omega
  omega

/-! ### No queue is left -/

/-- The judge at `pc` has yet to take the name `k` away. -/
def Pc.Keeps : Pc → Name → Prop
  | .unlinkRunner _, .judge => False
  | .unlinkRunner i, .runner j => i ≤ j
  | .returned, _ => False
  | _, _ => True

theorem keeps_unlinkFrom {i j : ℕ} (hj : j ≤ n) (hij : i ≤ j) :
    (unlinkFrom n i).Keeps (.runner j) := by
  unfold unlinkFrom
  rw [if_pos (hij.trans hj)]
  exact hij

theorem keeps_orDie {pc : Pc} {k : Name} (h : pc.Keeps k) (ok : Bool) : (orDie pc ok).Keeps k := by
  cases ok
  · trivial
  · exact h

/-- Only queues that were made have names, until the judge takes them away. -/
theorem named {s : State n} (h : (stadium n).Reachable s) (k : Name) :
    (s.queue k).linked = true → created n k = true ∧ (s.proc .judge).Keeps k := by
  induction h with
  | init hs =>
    cases hs
    intro hlinked
    refine ⟨hlinked, ?_⟩
    show (collect n 0).Keeps k
    unfold collect
    split <;> trivial
  | @step s l s' _ hstep ih =>
    obtain ⟨p, pc, call⟩ := l
    obtain ⟨-, hstep⟩ := hstep
    change Step mq_maxmsg (op n) s p s' call at hstep
    intro hlinked
    have hbefore : (s.queue k).linked = true := by
      by_contra hgone
      rw [hstep.unlinked_stays (Bool.not_eq_true _ ▸ hgone)] at hlinked
      cases hlinked
    obtain ⟨hcreated, hkeeps⟩ := ih hbefore
    refine ⟨hcreated, ?_⟩
    cases p with
    | runner i =>
      rw [hstep.frame (by simp)]
      exact hkeeps
    | judge =>
      cases hpc : s.proc .judge with
      | unlinkJudge =>
        obtain ⟨-, rfl⟩ := hstep.of_unlink (op_judge hpc)
        rw [Host.goto_proc_self]
        cases k with
        | judge => simp [Host.unlink] at hlinked
        | runner j =>
          have hj := of_decide_eq_true hcreated
          exact keeps_unlinkFrom hj.2 hj.1
      | unlinkRunner i =>
        obtain ⟨-, rfl⟩ := hstep.of_unlink (op_judge hpc)
        rw [hpc] at hkeeps
        rw [Host.goto_proc_self]
        cases k with
        | judge => exact hkeeps.elim
        | runner j =>
          have hij : i ≤ j := hkeeps
          have hne : j ≠ i := by
            rintro rfl
            simp [Host.unlink] at hlinked
          exact keeps_unlinkFrom (of_decide_eq_true hcreated).2 (by omega)
      | awaitArrival arrived =>
        refine hstep.then (Q := fun pc => pc.Keeps k) ?_
        rw [op_judge hpc]
        intro who
        unfold collect
        split <;> trivial
      | openFirst =>
        refine hstep.then (Q := fun pc => pc.Keeps k) ?_
        rw [op_judge hpc]
        exact keeps_orDie trivial
      | sendStart | awaitFinish =>
        refine hstep.then (Q := fun pc => pc.Keeps k) ?_
        rw [op_judge hpc]
        first
          | trivial
          | exact fun _ => trivial
      | openMy | openNext | openJudge | sendArrival | awaitBaton | running | sendPass | exited
      | returned | died => exact absurd (op_judge hpc) hstep.of_halt

/-- Everybody has ended without an error; all queues are empty and without a
    name. -/
structure Home (s : State n) : Prop where
  runners : ∀ i, s.proc (.runner i) = .exited
  judge : s.proc .judge = .returned
  unlinked : ∀ k, (s.queue k).linked = false
  empty : ∀ k, created n k = true → (s.queue k).msgs = []

theorem Runs.home {s : State n} {r : Race} (hR : Runs n s r) (hended : Ended s)
    (h : (stadium n).Reachable s) : Home s := by
  have hclosing := closing_of_ended hR.judge (hended .judge)
  have hleg := finished_of_closing hclosing
  have hjudge : s.proc .judge = .returned := by
    have hpc : s.proc .judge = .unlinkJudge ∨ (∃ i, s.proc .judge = .unlinkRunner i) ∨
        s.proc .judge = .returned := pc_of_judge (hclosing ▸ hR.judge)
    have hend := hended .judge
    rcases hpc with hpc | ⟨i, hpc⟩ | hpc
    · rw [hpc] at hend
      exact hend.elim
    · rw [hpc] at hend
      exact hend.elim
    · exact hpc
  refine ⟨fun i => ?_, hjudge, fun k => ?_, fun k hk => ?_⟩
  · have hphase := hR.good.passed_of_closing hclosing (i := i + 1) ⟨by omega, by omega⟩
    exact pc_of_phase (hphase ▸ hR.runner i)
  · by_contra hlinked
    have hkeeps := (named h k (by simpa using hlinked)).2
    rw [hjudge] at hkeeps
    cases k <;> exact hkeeps
  · cases k with
    | judge =>
      have hlength := hR.good.length_le
      have hheard := hR.good.started (by simp [hleg])
      rw [hR.queue.mail, hleg, List.drop_eq_nil_of_le (by omega)]
      rfl
    | runner i =>
      have hlen := hR.queue.batons i (of_decide_eq_true hk).1
      rw [hleg, if_neg (by simp)] at hlen
      exact List.length_eq_zero_iff.mp hlen

end Posix

/-! ### Both races -/

/-- **Relay race**: both versions are a race of `n` runners, and whoever watches
    the baton cannot tell a completed run of one from a completed run of the
    other. No run is longer than `5 n + 3` and `9 n + 3` calls, and one that
    cannot go on has the whole course. -/
theorem relay_race (n : ℕ) (hn : 1 ≤ n) (cap : Option ℕ) (hcap : ∀ Q ∈ cap, 1 ≤ Q) :
    IsRelay n (SysV.stadium n cap) SysV.observe SysV.misuse SysV.batons SysV.Ended ∧
    IsRelay n (Posix.stadium n) Posix.observe Posix.misuse Posix.batons Posix.Ended ∧
    (∀ ls s ls' s', (SysV.stadium n cap).Run (SysV.init n) ls s → SysV.Ended s →
      (Posix.stadium n).Run (Posix.init n) ls' s' → Posix.Ended s' →
      (ls.flatMap SysV.observe).filter Happening.isHandover =
        (ls'.flatMap Posix.observe).filter Happening.isHandover) ∧
    (∀ ls s, (SysV.stadium n cap).Run (SysV.init n) ls s → ls.length ≤ 5 * n + 3 ∧
      ((∀ l, ¬ (SysV.stadium n cap).Enabled s l) →
        (ls.flatMap SysV.observe).filter Happening.isHandover = course n)) ∧
    (∀ ls s, (Posix.stadium n).Run (Posix.init n) ls s → ls.length ≤ 9 * n + 3 ∧
      ((∀ l, ¬ (Posix.stadium n).Enabled s l) →
        (ls.flatMap Posix.observe).filter Happening.isHandover = course n)) := by
  have hsysv := SysV.stadium_race hn hcap
  have hposix := Posix.stadium_race hn
  refine ⟨hsysv, hposix, ?_, ?_, ?_⟩
  · intro ls s ls' s' hrun hended hrun' hended'
    rw [hsysv.complete _ _ _ rfl hrun hended, hposix.complete _ _ _ rfl hrun' hended']
  · intro ls s hrun
    exact ⟨SysV.run_le hn hrun, fun hquiet => (hsysv.of_quiet rfl hrun hquiet).2⟩
  · intro ls s hrun
    exact ⟨Posix.run_le hn hrun, fun hquiet => (hposix.of_quiet rfl hrun hquiet).2⟩

def first : Proc 2 := .runner ⟨0, Nat.zero_lt_two⟩
def second : Proc 2 := .runner ⟨1, Nat.one_lt_two⟩

/-- Both runners arrive, and then run one after the other. -/
def pairOnSysV : List (Proc 2) :=
  [first, .judge, second, .judge, .judge] ++ [first, first, first] ++ [second, second, second] ++
    [.judge, .judge]

/-- The same with the queues opened first and unlinked last. -/
def pairOnPosix : List (Proc 2) :=
  [first, first, first, second, second] ++ [first, .judge, second, .judge, .judge, .judge] ++
    [first, first, first] ++ [second, second, second] ++ [.judge, .judge, .judge, .judge]

/-- Two runners, and a SysV queue that holds one message: both races are run to
    their end, with the same hand-overs. -/
theorem relay_race_pair : ∃ ls s ls' s',
    (SysV.stadium 2 (some 1)).Run (SysV.init 2) ls s ∧ ls.length = 13 ∧
    (Posix.stadium 2).Run (Posix.init 2) ls' s' ∧ ls'.length = 21 ∧
    (ls.flatMap SysV.observe).filter Happening.isHandover = [.take 1, .take 2, .finish 2] ∧
    (ls'.flatMap Posix.observe).filter Happening.isHandover = [.take 1, .take 2, .finish 2] := by
  have hsysv : (System.replay (SysV.nextLabel (some 1)) (SysV.init 2) pairOnSysV).any (fun r =>
      decide (∀ p, r.1.proc p = .exited ∨ r.1.proc p = .returned) && r.2.length == 13) = true := by
    decide +kernel
  have hposix : (System.replay Posix.nextLabel (Posix.init 2) pairOnPosix).any (fun r =>
      decide (∀ p, r.1.proc p = .exited ∨ r.1.proc p = .returned) && r.2.length == 21) = true := by
    decide +kernel
  obtain ⟨⟨s, ls⟩, hs, hends⟩ := (Option.any_eq_true _ _).mp hsysv
  obtain ⟨⟨s', ls'⟩, hs', hends'⟩ := (Option.any_eq_true _ _).mp hposix
  simp only [Bool.and_eq_true, decide_eq_true_eq, beq_iff_eq] at hends hends'
  have hrun : (SysV.stadium 2 (some 1)).Run (SysV.init 2) ls s :=
    System.Run.of_replay (fun _ _ _ _ => SysV.step_of_nextLabel) hs
  have hrun' : (Posix.stadium 2).Run (Posix.init 2) ls' s' :=
    System.Run.of_replay (fun _ _ _ _ => Posix.step_of_nextLabel) hs'
  have hended : SysV.Ended s := by
    intro p
    rcases hends.1 p with hp | hp <;> rw [hp] <;> trivial
  have hended' : Posix.Ended s' := by
    intro p
    rcases hends'.1 p with hp | hp <;> rw [hp] <;> trivial
  obtain ⟨hrace, -, hsame, -, -⟩ := relay_race 2 (by decide) (some 1) (by simp)
  have hcourse := hrace.complete _ _ _ rfl hrun hended
  exact ⟨ls, s, ls', s', hrun, hends.2, hrun', hends'.2, hcourse,
    (hsame _ _ _ _ hrun hended hrun' hended').symm.trans hcourse⟩

/-- **Both races end**, after at most `5 n + 3` and `9 n + 3` calls; where
    nobody can move the baton has been all the way round, everybody has ended
    without an error, and the judge has cleaned up. -/
theorem races_end (hn : 1 ≤ n) {cap : Option ℕ} (hcap : ∀ Q ∈ cap, 1 ≤ Q) :
    (∀ ls s, (SysV.stadium n cap).Run (SysV.init n) ls s → ls.length ≤ 5 * n + 3 ∧
      ((∀ l, ¬ (SysV.stadium n cap).Enabled s l) → SysV.Home s ∧
        (ls.flatMap SysV.observe).filter Happening.isHandover = course n)) ∧
    (∀ ls s, (Posix.stadium n).Run (Posix.init n) ls s → ls.length ≤ 9 * n + 3 ∧
      ((∀ l, ¬ (Posix.stadium n).Enabled s l) → Posix.Home s ∧
        (ls.flatMap Posix.observe).filter Happening.isHandover = course n)) := by
  constructor
  · intro ls s h
    refine ⟨SysV.run_le hn h, fun hquiet => ?_⟩
    have hreach := h.reachable (.init rfl)
    obtain ⟨hended, hcourse⟩ := (SysV.stadium_race hn hcap).of_quiet rfl h hquiet
    obtain ⟨r, -, hR⟩ := (SysV.stadium_simulation hn cap).reachable hreach
    exact ⟨hR.home hended hreach, hcourse⟩
  · intro ls s h
    refine ⟨Posix.run_le hn h, fun hquiet => ?_⟩
    have hreach := h.reachable (.init rfl)
    obtain ⟨hended, hcourse⟩ := (Posix.stadium_race hn).of_quiet rfl h hquiet
    obtain ⟨r, -, hR⟩ := (Posix.stadium_simulation hn).reachable hreach
    exact ⟨hR.home hended hreach, hcourse⟩

theorem races_end_pair :
    (∀ ls s, (SysV.stadium 2 (some 1)).Run (SysV.init 2) ls s → ls.length ≤ 13) ∧
    (∀ ls s, (Posix.stadium 2).Run (Posix.init 2) ls s → ls.length ≤ 21) := by
  obtain ⟨hsysv, hposix⟩ := races_end (n := 2) (by decide)
    (show ∀ Q ∈ some 1, 1 ≤ Q by simp)
  exact ⟨fun ls s h => (hsysv ls s h).1, fun ls s h => (hposix ls s h).1⟩

end Relay
