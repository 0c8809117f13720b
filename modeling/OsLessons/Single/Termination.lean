import OsLessons.Single.Printing
import OsLessons.Single.Registration

/-! # The program `single`: every process ends

  A character takes at most six steps. Only an interrupted `write`, which goes
  once more through the head of the loop, and a signal prolong a run
  (`every_process_ends`). In the end nobody is counted any more.
-/

namespace Single

open Lts Semaphore

variable {T : Type*} {l l' : Proc}

/-! ### Steps that are left -/

/-- The steps of a process up to its end; no message is longer than 14. -/
def Proc.left (l : Proc) : ℕ :=
  match l.pc with
  | .unstarted => 101
  | .sigaction => 100
  | .sem_open => 99
  | .shm_open => 98
  | .ftruncate => 97
  | .mmap => 96
  | .waitEntry => 95
  | .choose => 94
  | .postEntry => 93
  | .print .test i => 6 * (l.text.length - i.toNat) + 8
  | .print .write i => 6 * (l.text.length - i.toNat) + 7
  | .print .written i => 6 * (l.text.length - (i.toNat + 1)) + 12
  | .print .pause i => 6 * (l.text.length - (i.toNat + 1)) + 11
  | .print .paused i => 6 * (l.text.length - (i.toNat + 1)) + 10
  | .print .advance i => 6 * (l.text.length - (i + 1).toNat) + 9
  | .finish => 7
  | .writeNl => 6
  | .cleanup => 5
  | .waitCleanup => 4
  | .leave => 3
  | .postCleanup => 2
  | .close => 1
  | .exited => 0

/-- What an answer may cost: an interrupted `write` is repeated after three steps. -/
def Answer.toll : Answer → ℕ
  | .interrupted => 3
  | .ok | .failed => 0

/-- What an event may cost beyond what its process has left. -/
def toll : Event T Answer → ℕ
  | .act _ answer => answer.toll
  | .signal _ => 1
  | .run _ => 0

theorem left_print {f : shared_state → Answer → Option (shared_state × Proc)}
    {sh sh' : shared_state} {pc : LoopPc} {i : UInt64} {answer : Answer}
    (hpc : l.pc = .print pc i) (h : Printed False False l)
    (hop : (print l i pc : Op shared_state Sem T Answer Proc) = .act f)
    (hf : f sh answer = some (sh', l')) : l'.left + 1 ≤ l.left + answer.toll := by
  unfold Printed at h
  rw [hpc] at h
  unfold Proc.left
  rw [hpc]
  cases pc with
  | test =>
    cases hop
    cases hf
    by_cases hi : i < l.len
    · rw [if_pos hi]
      show 6 * (l.text.length - i.toNat) + 7 + 1 ≤ 6 * (l.text.length - i.toNat) + 8 + _
      omega
    · rw [if_neg hi]
      show 7 + 1 ≤ 6 * (l.text.length - i.toNat) + 8 + _
      omega
  | write =>
    have hlt : i.toNat < l.text.length := h.2
    cases hop
    cases answer with
    | ok =>
      cases hf
      show 6 * (l.text.length - (i.toNat + 1)) + 12 + 1 ≤ 6 * (l.text.length - i.toNat) + 7 + 0
      omega
    | interrupted =>
      cases hf
      show 6 * (l.text.length - (i - 1 + 1).toNat) + 9 + 1 ≤ 6 * (l.text.length - i.toNat) + 7 + 3
      rw [UInt64.sub_add_cancel]
    | failed =>
      cases hf
      show 7 + 1 ≤ 6 * (l.text.length - i.toNat) + 7 + 0
      omega
  | written =>
    cases hop
    cases hf
    by_cases hflag : l.stop_flag = true
    · rw [if_pos hflag]
      show 7 + 1 ≤ 6 * (l.text.length - (i.toNat + 1)) + 12 + _
      omega
    · rw [if_neg hflag]
      show 6 * (l.text.length - (i.toNat + 1)) + 11 + 1 ≤
        6 * (l.text.length - (i.toNat + 1)) + 12 + _
      omega
  | pause =>
    cases hop
    cases hf
    show 6 * (l.text.length - (i.toNat + 1)) + 10 + 1 ≤
      6 * (l.text.length - (i.toNat + 1)) + 11 + _
    omega
  | paused =>
    have hle : i.toNat + 1 ≤ l.text.length := h.le
    cases hop
    cases hf
    by_cases hflag : l.stop_flag = true
    · rw [if_pos hflag]
      show 7 + 1 ≤ 6 * (l.text.length - (i.toNat + 1)) + 10 + _
      omega
    · rw [if_neg hflag]
      show 6 * (l.text.length - (i + 1).toNat) + 9 + 1 ≤
        6 * (l.text.length - (i.toNat + 1)) + 10 + _
      rw [toNat_succ (Nat.le_of_succ_le hle)]
      omega
  | advance =>
    cases hop
    cases hf
    show 6 * (l.text.length - (i + 1).toNat) + 8 + 1 ≤ 6 * (l.text.length - (i + 1).toNat) + 9 + _
    omega

theorem left_act {f : shared_state → Answer → Option (shared_state × Proc)}
    {sh sh' : shared_state} {answer : Answer} (h : Printed False False l)
    (hop : (main l : Op shared_state Sem T Answer Proc) = .act f)
    (hf : f sh answer = some (sh', l')) : l'.left + 1 ≤ l.left + answer.toll := by
  cases hpc : l.pc with
  | print pc i =>
    rw [main, hpc] at hop
    exact left_print hpc h hop hf
  | unstarted | choose | leave | close =>
    rw [main, hpc] at hop
    cases hop
    cases hf
    unfold Proc.left
    rw [hpc]
    exact Nat.le_add_right _ _
  | sigaction | sem_open | shm_open | ftruncate | mmap | writeNl =>
    rw [main, hpc] at hop
    cases hop
    unfold Proc.left
    rw [hpc]
    cases answer <;> cases hf <;> simp [Answer.toll]
  | finish =>
    rw [main, hpc] at hop
    cases hop
    cases hf
    unfold Proc.left
    rw [hpc]
    by_cases hflag : l.stop_flag = true
    · rw [if_pos hflag]
      show 6 + 1 ≤ 7 + _
      omega
    · rw [if_neg hflag]
      show 5 + 1 ≤ 7 + _
      omega
  | cleanup =>
    rw [main, hpc] at hop
    cases hop
    cases hf
    unfold Proc.left
    rw [hpc]
    by_cases hreg : l.g_registered = true
    · rw [if_pos hreg]
      show 4 + 1 ≤ 5 + _
      omega
    · rw [if_neg hreg]
      show 1 + 1 ≤ 5 + _
      omega
  | waitEntry | postEntry | waitCleanup | postCleanup | exited =>
    rw [main, hpc] at hop
    cases hop

theorem left_sem (hop : (∃ k, (main l : Op shared_state Sem T Answer Proc) = .wait k l') ∨
      ∃ k n, (main l : Op shared_state Sem T Answer Proc) = .post k n l') :
    l'.left + 1 ≤ l.left := by
  obtain ⟨pc, stop_flag, g_registered, msg, out⟩ := l
  rcases hop with ⟨k, hop⟩ | ⟨k, n, hop⟩
  · cases pc with
    | waitEntry | waitCleanup =>
      cases hop
      exact le_rfl
    | print pc i => cases pc <;> cases hop
    | _ => cases hop
  · cases pc with
    | postEntry =>
      cases hop
      have htext := text_length ⟨.print .test 0, stop_flag, g_registered, msg, out⟩
      show 6 * ((Proc.text ⟨.print .test 0, stop_flag, g_registered, msg, out⟩).length - 0) + 8 +
        1 ≤ 93
      omega
    | postCleanup =>
      cases hop
      exact le_rfl
    | print pc i => cases pc <;> cases hop
    | _ => cases hop

/-! ### Whole runs -/

variable [DecidableEq T] {s s' : State T} {e : Event T Answer}

theorem left_step (h : Printed False False (s.thread e.thread)) (hstep : Step (procs T) s e s') :
    (s'.thread e.thread).left + 1 ≤ (s.thread e.thread).left + toll e := by
  cases hstep with
  | wait hop _ =>
    rw [Event.thread, Host.goto_thread_self]
    exact left_sem (.inl ⟨_, hop⟩)
  | post hop =>
    rw [Event.thread, Host.goto_thread_self]
    exact left_sem (.inr ⟨_, _, hop⟩)
  | join hop _ => exact absurd hop (main_ne_join _ _ _)
  | act hop hf =>
    rw [Event.thread, Host.goto_thread_self]
    exact left_act h hop hf
  | signal hl =>
    rw [Event.thread, Host.goto_thread_self, sigint_handler_eq hl]
    exact le_rfl

variable [Fintype T]

theorem left_run {es : List (Event T Answer)} (h : (single T).Run s es s')
    (hs : (single T).Reachable s) :
    es.length + ∑ p, (s'.thread p).left ≤ ∑ p, (s.thread p).left + (es.map toll).sum := by
  induction h with
  | nil => simp
  | @cons s s₁ s₂ e es hstep _ ih =>
    have hprinted : Printed False False (s.thread e.thread) :=
      printed hs e.thread (fun _ hs => hs) fun _ _ _ hs => ⟨hs, False.elim, False.elim⟩
    have hone := left_step hprinted hstep
    have hsum := sum_frame (t := e.thread) (fun _ l => (Proc.left l : ℤ))
      fun u hu => Step.frame hstep hu
    simp only [← Nat.cast_sum] at hsum
    have hrest := ih (hs.step hstep)
    rw [List.length_cons, List.map_cons, List.sum_cons]
    omega

/-! ### The end -/

omit [DecidableEq T] [Fintype T] in
/-- Only who waits for the semaphore cannot go on. -/
theorem stuck_pc (h : (main l : Op shared_state Sem T Answer Proc).Stuck (procs T) s) :
    l.pc = .exited ∨ l.pc.inside = 0 ∧ s.sem .g_sem = 0 := by
  cases hpc : l.pc with
  | exited => exact .inl rfl
  | waitEntry | waitCleanup =>
    rw [main, hpc] at h
    exact .inr ⟨rfl, h⟩
  | print pc i =>
    rw [main, hpc] at h
    cases pc <;> cases h .ok
  | postEntry | postCleanup =>
    rw [main, hpc] at h
    exact h.elim
  | _ =>
    rw [main, hpc] at h
    cases h .ok

def isSignal : Event T Answer → Bool
  | .signal _ => true
  | .run _ | .act _ _ => false

theorem exited_of_quiet (h : (single T).Reachable s)
    (hquiet : ∀ e, isSignal e = false → ¬ (single T).Enabled s e) :
    (∀ p, (s.thread p).pc = .exited) ∧ s.data.active = 0 ∧ s.sem .g_sem = 1 := by
  have hnone : ∀ e, isSignal e = false → next (procs T) s e = none := by
    intro e he
    by_contra hsome
    obtain ⟨s', hnext⟩ := Option.ne_none_iff_exists'.mp hsome
    exact hquiet e he ⟨s', step_of_next hnext⟩
  have hstuck := fun p => stuck_pc
    (stuck_of_quiet (fun t => hnone _ rfl) (fun t a => hnone _ rfl) p)
  have hmutex := mutex h
  -- nobody is inside, so the semaphore is free
  have houtside : ∀ p, (s.thread p).pc.inside = 0 := by
    intro p
    rcases hstuck p with hexit | ⟨hout, _⟩
    · rw [hexit]
      rfl
    · exact hout
  simp only [houtside, Finset.sum_const_zero, add_zero] at hmutex
  have hexited : ∀ p, (s.thread p).pc = .exited := by
    intro p
    rcases hstuck p with hexit | ⟨_, hzero⟩
    · exact hexit
    · omega
  refine ⟨hexited, ?_, by omega⟩
  rw [active_eq h]
  refine Finset.sum_eq_zero fun p _ => ?_
  rw [hexited p]
  rfl

/-- **Every process ends**: a run has at most 101 steps for each process, three
    for each interrupted call and one for each signal. Where nothing but signals
    could happen all processes have ended, nobody is counted in `active`, and the
    semaphore is free. -/
theorem every_process_ends {es : List (Event T Answer)} (h : (single T).Run (init T) es s) :
    es.length ≤ 101 * Fintype.card T + (es.map toll).sum ∧
      ((∀ e, isSignal e = false → ¬ (single T).Enabled s e) →
        (∀ p, (s.thread p).pc = .exited) ∧ s.data.active = 0 ∧ s.sem .g_sem = 1) := by
  have hinit : (single T).Reachable (init T) := .init rfl
  refine ⟨?_, exited_of_quiet (h.reachable hinit)⟩
  have hrun := left_run h hinit
  have hstart : ∑ p : T, ((init T).thread p).left = 101 * Fintype.card T := by
    simp [init, Proc.left, mul_comm]
  omega

/-- One process, interrupted once, and a signal. -/
theorem every_process_ends_mid : ∃ s, (single Unit).Run (init Unit) midRun s ∧
    midRun.length ≤ 105 ∧ s.data.active = 0 ∧ s.sem .g_sem = 1 := by
  have hrun : (replay (procs Unit) (init Unit) midRun).any (fun s =>
      decide ((s.thread ()).pc = .exited)) = true := by
    decide +kernel
  obtain ⟨s, hreplay, hends⟩ := (Option.any_eq_true _ _).mp hrun
  have hexit : ∀ p, (s.thread p).pc = .exited := fun _ => of_decide_eq_true hends
  have h : (single Unit).Run (init Unit) midRun s := Run.of_replay hreplay
  obtain ⟨hlen, hquiet⟩ := every_process_ends h
  refine ⟨s, h, hlen, (hquiet ?_).2⟩
  intro e he ⟨s', hstep⟩
  have hop : ∀ p, (procs Unit).op p (s.thread p) = .exit := by
    intro p
    show main (s.thread p) = .exit
    rw [main, hexit p]
  cases hstep with
  | wait hwait | post hwait | join hwait | act hwait => cases (hop _).symm.trans hwait
  | signal => cases he

end Single
