import OsLessons.Single.Model

/-! # The program `single`: printing

  The print loop writes the message one character after the other, whatever
  `SIGINT` and `EINTR` do (`Printed`). `stop_flag` is looked at after a
  character and after the pause behind it; a flag that is seen there ends the
  line in front of its last character. From the last of these looks on a signal
  comes too late: the line is complete, and a newline follows it nevertheless.
-/

namespace Single

open Lts Semaphore

variable {T : Type*} {l l' : Proc} {i : UInt64} {k ahead : ℕ} {q r : Prop}

/-! ### The message -/

theorem Msg.text_eq (m : Msg) : m.text = m.text.dropLast ++ ['\n'] := by
  cases m <;> decide

theorem text_length (l : Proc) : l.text.length ≤ 14 := by
  unfold Proc.text
  cases l.msg with
  | none => decide
  | some m => cases m <;> decide

theorem one_lt_length (h : l.msg ≠ none) : 1 < l.text.length := by
  unfold Proc.text
  cases hm : l.msg with
  | none => exact absurd hm h
  | some m => cases m <;> decide

theorem len_toNat (l : Proc) : l.len.toNat = l.text.length := by
  have hle := text_length l
  rw [Proc.len, Nat.toUInt64, UInt64.toNat_ofNat', Nat.mod_eq_of_lt (by omega)]

theorem toNat_succ (h : i.toNat ≤ l.text.length) : (i + 1).toNat = i.toNat + 1 := by
  have hle := text_length l
  rw [UInt64.toNat_add, UInt64.toNat_one, Nat.mod_eq_of_lt (by omega)]

/-! ### Places of the loop -/

/-- From its last look at `stop_flag` before the last character to the check
    after the loop. -/
def atEnd (l : Proc) : Bool :=
  match l.pc with
  | .print .advance i => l.len ≤ i + 1 + 1
  | .print _ i => l.len ≤ i + 1
  | .finish => true
  | _ => false

/-- The first `SIGINT` comes too late to end the line in front of its last
    character. -/
def late (l : Proc) : Bool := !l.stop_flag && atEnd l

/-- No `write` fails other than with `EINTR`. -/
def calm (l : Proc) (answer : Answer) : Bool :=
  match l.pc with
  | .print .write _ | .writeNl => answer ≠ .failed
  | _ => true

/-- The `write` of the closing newline is not interrupted. -/
def closed (l : Proc) (answer : Answer) : Bool :=
  match l.pc with
  | .writeNl => answer ≠ .interrupted
  | _ => true

/-- `k` characters of the message have been written, and under `q` at least
    `ahead` more are to come before the last one if `stop_flag` is set. -/
structure Loop (q : Prop) (l : Proc) (k ahead : ℕ) : Prop where
  le : k ≤ l.text.length
  out : l.out = l.text.take k
  timely : q → l.stop_flag = true → k + ahead < l.text.length

/-- A line that is complete; its newline may be missing if `r` does not hold. -/
def Complete (r : Prop) (l : Proc) : Prop :=
  ∀ m, l.msg = some m → ∃ body, body <+: m.text.dropLast ∧
    (l.out = body ++ ['\n'] ∨ ¬ r ∧ l.out = body)

/-- What has been written after the loop. -/
structure Ended (q r : Prop) (l : Proc) : Prop where
  out : ∃ k, l.out = l.text.take k ∨ l.out = l.text.take k ++ ['\n']
  complete : q → Complete r l

/-- What has been written, place by place. Under `q` the calls of the process
    are `calm` and no signal is `late`, under `r` its last newline is not
    interrupted. -/
def Printed (q r : Prop) (l : Proc) : Prop :=
  match l.pc with
  | .unstarted | .sigaction | .sem_open | .shm_open | .ftruncate | .mmap | .waitEntry | .choose =>
      l.out = [] ∧ l.msg = none
  | .postEntry => l.out = [] ∧ l.msg ≠ none
  | .print .test i => Loop q l i.toNat 1
  | .print .write i => Loop q l i.toNat 1 ∧ i.toNat < l.text.length
  | .print .advance i => Loop q l (i + 1).toNat 1
  | .print _ i => Loop q l (i.toNat + 1) 0
  | .finish => ∃ k, Loop q l k 0 ∧ (q → l.stop_flag = false → l.out = l.text)
  | .writeNl => ∃ k, l.out = l.text.take k ∧ (q → k < l.text.length)
  | .cleanup | .waitCleanup | .leave | .postCleanup | .close | .exited => Ended q r l

/-- What is written before the last character is part of the line. -/
theorem prefix_of_take {out : List Char} (hout : out = l.text.take k)
    (hlt : k < l.text.length) (m : Msg) (hm : l.msg = some m) :
    out <+: m.text.dropLast := by
  have htext : l.text = m.text := by
    rw [Proc.text, hm]
    rfl
  rw [htext] at hout hlt
  have hle : k ≤ m.text.dropLast.length := by
    rw [List.length_dropLast]
    exact Nat.le_sub_one_of_lt hlt
  have htake : m.text.take k = m.text.dropLast.take k := by
    conv_lhs => rw [m.text_eq]
    exact List.take_append_of_le_length hle
  rw [hout, htake]
  exact List.take_prefix _ _

/-- The whole message is a complete line. -/
theorem complete_of_text (hout : l.out = l.text) : Complete r l := by
  intro m hm
  refine ⟨m.text.dropLast, List.prefix_rfl, .inl ?_⟩
  rw [hout, ← m.text_eq, Proc.text, hm]
  rfl

/-! ### One step -/

theorem Printed.print {f : shared_state → Answer → Option (shared_state × Proc)}
    {sh sh' : shared_state} {pc : LoopPc} {answer : Answer} (hpc : l.pc = .print pc i)
    (h : Printed q r l) (hcalm : q → calm l answer = true)
    (hop : (print l i pc : Op shared_state Sem T Answer Proc) = .act f)
    (hf : f sh answer = some (sh', l')) : Printed q r l' := by
  unfold Printed at h
  rw [hpc] at h
  cases pc with
  | test =>
    cases hop
    cases hf
    by_cases hi : i < l.len
    · have hlt : i.toNat < l.text.length := by
        rw [← len_toNat]
        exact UInt64.lt_iff_toNat_lt.mp hi
      rw [if_pos hi]
      exact ⟨⟨h.le, h.out, h.timely⟩, hlt⟩
    · have heq : i.toNat = l.text.length := by
        refine le_antisymm h.le ?_
        rw [← len_toNat]
        exact Nat.le_of_not_lt fun hlt => hi (UInt64.lt_iff_toNat_lt.mpr hlt)
      rw [if_neg hi]
      refine ⟨i.toNat, ⟨h.le, h.out, fun hq hflag => ?_⟩, fun _ _ => ?_⟩
      · exact Nat.lt_of_succ_lt (h.timely hq hflag)
      · show l.out = l.text
        rw [h.out, heq, List.take_length]
  | write =>
    obtain ⟨hloop, hlt⟩ := h
    cases hop
    cases answer with
    | ok =>
      cases hf
      refine ⟨hlt, ?_, fun hq hflag => hloop.timely hq hflag⟩
      show l.out ++ l.text[i.toNat]?.toList = l.text.take (i.toNat + 1)
      rw [hloop.out, List.take_add_one]
    | interrupted =>
      cases hf
      show Loop q _ (i - 1 + 1).toNat 1
      rw [UInt64.sub_add_cancel]
      exact ⟨hloop.le, hloop.out, hloop.timely⟩
    | failed =>
      cases hf
      have hno : ¬ q := by
        intro hq
        have := hcalm hq
        rw [calm, hpc] at this
        cases this
      exact ⟨i.toNat, ⟨hloop.le, hloop.out, fun hq => absurd hq hno⟩, fun hq => absurd hq hno⟩
  | written =>
    cases hop
    cases hf
    by_cases hflag : l.stop_flag = true
    · rw [if_pos hflag]
      refine ⟨i.toNat + 1, ⟨h.le, h.out, h.timely⟩, fun _ hno => ?_⟩
      exact absurd hflag (Bool.eq_false_iff.mp hno)
    · rw [if_neg hflag]
      exact ⟨h.le, h.out, h.timely⟩
  | pause =>
    cases hop
    cases hf
    exact ⟨h.le, h.out, h.timely⟩
  | paused =>
    cases hop
    cases hf
    by_cases hflag : l.stop_flag = true
    · rw [if_pos hflag]
      refine ⟨i.toNat + 1, ⟨h.le, h.out, h.timely⟩, fun _ hno => ?_⟩
      exact absurd hflag (Bool.eq_false_iff.mp hno)
    · rw [if_neg hflag]
      show Loop q _ (i + 1).toNat 1
      rw [toNat_succ (Nat.le_of_succ_le h.le)]
      exact ⟨h.le, h.out, fun _ hyes => absurd hyes hflag⟩
  | advance =>
    cases hop
    cases hf
    exact ⟨h.le, h.out, h.timely⟩

/-- The closing newline is written, or not. -/
theorem Printed.newline {f : shared_state → Answer → Option (shared_state × Proc)}
    {sh sh' : shared_state} {answer : Answer} (h : Printed q r l) (hpc : l.pc = .writeNl)
    (hcalm : q → calm l answer = true) (hclosed : r → closed l answer = true)
    (hop : (writeNl l : Op shared_state Sem T Answer Proc) = .act f)
    (hf : f sh answer = some (sh', l')) : Printed q r l' := by
  rw [Printed, hpc] at h
  obtain ⟨k, hout, hlt⟩ := h
  have hprefix : q → ∀ m, l.msg = some m → l.out <+: m.text.dropLast :=
    fun hq => prefix_of_take hout (hlt hq)
  cases hop
  cases answer with
  | ok =>
    cases hf
    refine ⟨⟨k, .inr ?_⟩, fun hq m hm => ⟨_, hprefix hq m hm, .inl rfl⟩⟩
    show l.out ++ ['\n'] = _
    rw [hout]
    rfl
  | interrupted =>
    cases hf
    have hno : ¬ r := by
      intro hr
      have := hclosed hr
      rw [closed, hpc] at this
      cases this
    exact ⟨⟨k, .inl hout⟩, fun hq m hm => ⟨_, hprefix hq m hm, .inr ⟨hno, rfl⟩⟩⟩
  | failed =>
    cases hf
    have hno : ¬ q := by
      intro hq
      have := hcalm hq
      rw [calm, hpc] at this
      cases this
    exact ⟨⟨k, .inl hout⟩, fun hq => absurd hq hno⟩

/-- A step of the own code keeps track of what has been written. -/
theorem Printed.act {f : shared_state → Answer → Option (shared_state × Proc)}
    {sh sh' : shared_state} {answer : Answer} (h : Printed q r l)
    (hcalm : q → calm l answer = true) (hclosed : r → closed l answer = true)
    (hop : (main l : Op shared_state Sem T Answer Proc) = .act f)
    (hf : f sh answer = some (sh', l')) : Printed q r l' := by
  cases hpc : l.pc with
  | print pc i =>
    rw [main, hpc] at hop
    exact h.print hpc hcalm hop hf
  | unstarted =>
    rw [main, hpc] at hop
    rw [Printed, hpc] at h
    cases hop
    cases hf
    exact h
  | choose =>
    rw [main, hpc] at hop
    rw [Printed, hpc] at h
    cases hop
    cases hf
    exact ⟨h.1, Option.some_ne_none _⟩
  | sigaction | sem_open | shm_open | ftruncate | mmap =>
    rw [main, hpc] at hop
    rw [Printed, hpc] at h
    cases hop
    cases answer with
    | ok =>
      cases hf
      exact h
    | failed =>
      cases hf
      refine ⟨⟨0, .inl h.1⟩, fun _ m hm => ?_⟩
      have hnone : l.msg = some m := hm
      rw [h.2] at hnone
      cases hnone
    | interrupted => cases hf
  | finish =>
    rw [main, hpc] at hop
    rw [Printed, hpc] at h
    obtain ⟨k, hloop, hwhole⟩ := h
    cases hop
    cases hf
    by_cases hflag : l.stop_flag = true
    · rw [if_pos hflag]
      exact ⟨k, hloop.out, fun hq => hloop.timely hq hflag⟩
    · rw [if_neg hflag]
      refine ⟨⟨k, .inl hloop.out⟩, fun hq => ?_⟩
      exact complete_of_text (hwhole hq (Bool.eq_false_iff.mpr hflag))
  | writeNl =>
    rw [main, hpc] at hop
    exact h.newline hpc hcalm hclosed hop hf
  | cleanup =>
    rw [main, hpc] at hop
    rw [Printed, hpc] at h
    cases hop
    cases hf
    by_cases hreg : l.g_registered = true
    · rw [if_pos hreg]
      exact ⟨h.out, h.complete⟩
    · rw [if_neg hreg]
      exact ⟨h.out, h.complete⟩
  | leave | close =>
    rw [main, hpc] at hop
    rw [Printed, hpc] at h
    cases hop
    cases hf
    exact ⟨h.out, h.complete⟩
  | waitEntry | postEntry | waitCleanup | postCleanup | exited =>
    rw [main, hpc] at hop
    cases hop

/-- A flag that is set in time will be seen in time. -/
theorem Loop.flagged (h : Loop q l k ahead) (htime : q → k + ahead < l.text.length) :
    Loop q { l with stop_flag := true } k ahead :=
  ⟨h.le, h.out, fun hq _ => htime hq⟩

theorem lt_of_early (hi : i.toNat ≤ l.text.length) (h : decide (l.len ≤ i + 1) = false) :
    i.toNat + 1 < l.text.length := by
  have hlt := UInt64.lt_iff_toNat_lt.mp (UInt64.not_le.mp (of_decide_eq_false h))
  rwa [len_toNat, toNat_succ hi] at hlt

/-- A signal that is not late keeps the line in time. -/
theorem Printed.signal (h : Printed q r l) (hlate : q → late l = false) :
    Printed q r { l with stop_flag := true } := by
  obtain ⟨pc, stop_flag, g_registered, msg, out⟩ := l
  cases stop_flag with
  | true => exact h
  | false =>
    have hend : q → atEnd ⟨pc, false, g_registered, msg, out⟩ = false := hlate
    cases pc with
    | print pc i =>
      cases pc with
      | test => exact Loop.flagged h fun hq => lt_of_early h.le (hend hq)
      | write => exact ⟨h.1.flagged fun hq => lt_of_early h.1.le (hend hq), h.2⟩
      | written | pause | paused =>
        exact Loop.flagged h fun hq => lt_of_early (Nat.le_of_succ_le h.le) (hend hq)
      | advance => exact Loop.flagged h fun hq => lt_of_early h.le (hend hq)
    | finish =>
      obtain ⟨k, hloop, _⟩ := h
      have hno : ¬ q := fun hq => by cases hend hq
      exact ⟨k, hloop.flagged fun hq => absurd hq hno, fun hq => absurd hq hno⟩
    | cleanup | waitCleanup | leave | postCleanup | close | exited => exact ⟨h.out, h.complete⟩
    | unstarted | sigaction | sem_open | shm_open | ftruncate | mmap | waitEntry | choose
    | postEntry | writeNl => exact h

/-- The semaphore operations write nothing. -/
theorem Printed.sem (h : Printed q r l)
    (hop : (∃ k, (main l : Op shared_state Sem T Answer Proc) = .wait k l') ∨
      ∃ k n, (main l : Op shared_state Sem T Answer Proc) = .post k n l') : Printed q r l' := by
  obtain ⟨pc, stop_flag, g_registered, msg, out⟩ := l
  rcases hop with ⟨k, hop⟩ | ⟨k, n, hop⟩
  · cases pc with
    | waitEntry =>
      cases hop
      exact h
    | waitCleanup =>
      cases hop
      exact ⟨h.out, h.complete⟩
    | print pc i => cases pc <;> cases hop
    | _ => cases hop
  · cases pc with
    | postEntry =>
      cases hop
      exact ⟨Nat.zero_le _, h.1, fun _ _ => one_lt_length h.2⟩
    | postCleanup =>
      cases hop
      exact ⟨h.out, h.complete⟩
    | print pc i => cases pc <;> cases hop
    | _ => cases hop

/-- No process waits for the end of another. -/
theorem main_ne_join (l l' : Proc) (t : T) :
    (main l : Op shared_state Sem T Answer Proc) ≠ .join t l' := by
  obtain ⟨pc, stop_flag, g_registered, msg, out⟩ := l
  cases pc with
  | print pc i => cases pc <;> nofun
  | _ => nofun

/-! ### Whole runs -/

variable [DecidableEq T]

/-- No `write` of process `p` fails other than with `EINTR`, and its `SIGINT`
    does not come late. -/
def Calm (p : T) (s : State T) (e : Event T Answer) : Prop :=
  match e with
  | .act t answer => t = p → calm (s.thread p) answer = true
  | .signal t => t = p → late (s.thread p) = false
  | .run _ => True

/-- The closing newline of process `p` is not interrupted. -/
def Closed (p : T) (s : State T) (e : Event T Answer) : Prop :=
  match e with
  | .act t answer => t = p → closed (s.thread p) answer = true
  | _ => True

theorem printed_step {s s' : State T} {e : Event T Answer} {p : T}
    (h : Printed q r (s.thread p)) (hcalm : q → Calm p s e) (hclosed : r → Closed p s e)
    (hstep : Step (procs T) s e s') : Printed q r (s'.thread p) := by
  rcases eq_or_ne p e.thread with rfl | hp
  swap
  · rw [hstep.frame hp]
    exact h
  cases hstep with
  | wait hop _ =>
    rw [Event.thread, Host.goto_thread_self]
    exact h.sem (.inl ⟨_, hop⟩)
  | post hop =>
    rw [Event.thread, Host.goto_thread_self]
    exact h.sem (.inr ⟨_, _, hop⟩)
  | join hop _ => exact absurd hop (main_ne_join _ _ _)
  | act hop hf =>
    rw [Event.thread, Host.goto_thread_self]
    exact h.act (fun hq => hcalm hq rfl) (fun hr => hclosed hr rfl) hop hf
  | signal hl =>
    rw [Event.thread, Host.goto_thread_self, sigint_handler_eq hl]
    exact h.signal fun hq => hcalm hq rfl

/-- `Printed` holds throughout in every system whose steps are steps of the
    program and, under `q` and `r`, meet their guards. -/
theorem printed {sys : System (State T) (Event T Answer)} {s : State T} (h : sys.Reachable s)
    (p : T) (hinit : ∀ s, sys.init s → s = init T)
    (hstep : ∀ s e s', sys.step s e s' →
      Step (procs T) s e s' ∧ (q → Calm p s e) ∧ (r → Closed p s e)) :
    Printed q r (s.thread p) := by
  refine System.invariant (I := fun s => Printed q r (s.thread p)) ?_ ?_ h
  · intro s hs
    rw [hinit s hs]
    exact ⟨rfl, rfl⟩
  · intro s e s' hprinted hs
    obtain ⟨hmove, hcalm, hclosed⟩ := hstep s e s' hs
    exact printed_step hprinted hcalm hclosed hmove

/-- The program points behind the loop and its newline. -/
def Pc.Done : Pc → Prop
  | .cleanup | .waitCleanup | .leave | .postCleanup | .close | .exited => True
  | _ => False

theorem Printed.ended (h : Printed q r l) (hdone : l.pc.Done) : Ended q r l := by
  obtain ⟨pc, stop_flag, g_registered, msg, out⟩ := l
  cases pc with
  | cleanup | waitCleanup | leave | postCleanup | close | exited => exact h
  | _ => cases hdone

/-- Up to the newline behind the loop a process has written the first characters
    of its message. -/
theorem Printed.out (h : Printed q r l) :
    ∃ k, l.out = l.text.take k ∨ l.pc.Done ∧ l.out = l.text.take k ++ ['\n'] := by
  by_cases hdone : l.pc.Done
  · obtain ⟨k, hout | hout⟩ := (h.ended hdone).out
    · exact ⟨k, .inl hout⟩
    · exact ⟨k, .inr ⟨hdone, hout⟩⟩
  · obtain ⟨pc, stop_flag, g_registered, msg, out⟩ := l
    cases pc with
    | print pc i =>
      cases pc with
      | test | advance | written | pause | paused => exact ⟨_, .inl (Loop.out h)⟩
      | write => exact ⟨_, .inl h.1.out⟩
    | finish =>
      obtain ⟨k, hloop, _⟩ := h
      exact ⟨k, .inl hloop.out⟩
    | writeNl =>
      obtain ⟨k, hout, _⟩ := h
      exact ⟨k, .inl hout⟩
    | cleanup | waitCleanup | leave | postCleanup | close | exited => exact absurd trivial hdone
    | _ => exact ⟨0, .inl h.1⟩

theorem Printed.index (h : Printed q r l) (hpc : l.pc = .print .write i) :
    i.toNat < l.text.length := by
  rw [Printed, hpc] at h
  exact h.2

/-- **Print loop**: however `write` is answered and whenever `SIGINT` arrives,
    the index stays inside the message and what has been written of the message
    is its beginning. Where no `write` fails other than with `EINTR` and the
    first `SIGINT` is not late, the line ends in front of the message's own
    newline, and one newline follows if the `write` of it is not interrupted. -/
theorem print_loop (T : Type*) [DecidableEq T] (p : T) :
    (∀ s, (single T).Reachable s →
      (∀ i, (s.thread p).pc = .print .write i → i.toNat < (s.thread p).text.length) ∧
      ∃ k, (s.thread p).out = (s.thread p).text.take k ∨
        (s.thread p).pc.Done ∧ (s.thread p).out = (s.thread p).text.take k ++ ['\n']) ∧
    (∀ s, ((single T).restrict (Calm p)).Reachable s → (s.thread p).pc.Done →
      ∀ m, (s.thread p).msg = some m → ∃ body, body <+: m.text.dropLast ∧
        ((s.thread p).out = body ++ ['\n'] ∨ (s.thread p).out = body)) ∧
    (∀ s, ((single T).restrict fun s e => Calm p s e ∧ Closed p s e).Reachable s →
      (s.thread p).pc.Done → ∀ m, (s.thread p).msg = some m →
      ∃ body, body <+: m.text.dropLast ∧ (s.thread p).out = body ++ ['\n']) := by
  refine ⟨fun s h => ?_, fun s h hdone m hm => ?_, fun s h hdone m hm => ?_⟩
  · have hprinted : Printed False False (s.thread p) :=
      printed h p (fun _ hs => hs) fun _ _ _ hs => ⟨hs, False.elim, False.elim⟩
    exact ⟨fun i hpc => hprinted.index hpc, hprinted.out⟩
  · have hprinted : Printed True False (s.thread p) :=
      printed h p (fun _ hs => hs) fun _ _ _ hs => ⟨hs.2, fun _ => hs.1, False.elim⟩
    obtain ⟨body, hbody, hout | ⟨_, hout⟩⟩ := (hprinted.ended hdone).complete trivial m hm
    · exact ⟨body, hbody, .inl hout⟩
    · exact ⟨body, hbody, .inr hout⟩
  · have hprinted : Printed True True (s.thread p) :=
      printed h p (fun _ hs => hs) fun _ _ _ hs => ⟨hs.2, fun _ => hs.1.1, fun _ => hs.1.2⟩
    obtain ⟨body, hbody, hout | ⟨hno, _⟩⟩ := (hprinted.ended hdone).complete trivial m hm
    · exact ⟨body, hbody, hout⟩
    · exact absurd trivial hno

/-! ### One process alone -/

/-- Steps of its own code. -/
def steps (n : ℕ) : List (Event Unit Answer) := List.replicate n (.act () .ok)

/-- `sem_wait`, a critical section and `sem_post`. -/
def criticalRun : List (Event Unit Answer) := [.run (), .act () .ok, .run ()]

def sigintRun : List (Event Unit Answer) := [.signal ()]

def eintrRun : List (Event Unit Answer) := [.act () .interrupted]

/-- From the start to the print loop. -/
def startRun : List (Event Unit Answer) := steps 6 ++ criticalRun

/-- From the cleanup to the end. -/
def leaveRun : List (Event Unit Answer) := steps 1 ++ criticalRun ++ steps 1

/-- The first `write` is interrupted, and `SIGINT` comes after the second character. -/
def midRun : List (Event Unit Answer) :=
  startRun ++ steps 1 ++ eintrRun ++ steps 9 ++ sigintRun ++ steps 3 ++ leaveRun

/-- `SIGINT` comes after the last character. -/
def lateRun : List (Event Unit Answer) :=
  startRun ++ steps 68 ++ sigintRun ++ steps 3 ++ leaveRun

/-- `SIGINT` comes after the first character, and the last newline is interrupted. -/
def cutRun : List (Event Unit Answer) :=
  startRun ++ steps 2 ++ sigintRun ++ steps 2 ++ eintrRun ++ leaveRun

def nextEvent (s : State Unit) (e : Event Unit Answer) : Option (State Unit × Event Unit Answer) :=
  (next (procs Unit) s e).map (·, e)

/-- Executable form of `Calm` and `Closed`. -/
def guarded (s : State Unit) : Event Unit Answer → Bool
  | .act _ answer => calm (s.thread ()) answer && closed (s.thread ()) answer
  | .signal _ => !late (s.thread ())
  | .run _ => true

theorem guarded_spec {s : State Unit} {e : Event Unit Answer} (h : guarded s e = true) :
    Calm () s e ∧ Closed () s e := by
  cases e with
  | run t => exact ⟨trivial, trivial⟩
  | act t answer =>
    have hboth := (Bool.and_eq_true _ _).mp h
    exact ⟨fun _ => hboth.1, fun _ => hboth.2⟩
  | signal t => exact ⟨fun _ => (Bool.not_eq_true' _).mp h, trivial⟩

/-- The line ends after its second character. -/
theorem print_loop_mid : ∃ s, ((single Unit).restrict fun s e =>
      Calm () s e ∧ Closed () s e).Reachable s ∧ (s.thread ()).pc = .exited ∧
    (s.thread ()).out = "He\n".toList ∧
    ∃ body, body <+: Msg.hello.text.dropLast ∧ (s.thread ()).out = body ++ ['\n'] := by
  have hrun : (System.replayIf nextEvent guarded (init Unit) midRun).any (fun s =>
      s.thread () == ⟨.exited, true, true, some .hello, "He\n".toList⟩) = true := by
    decide +kernel
  obtain ⟨s, hs, hprop⟩ := (Option.any_eq_true _ _).mp hrun
  have hthread := eq_of_beq hprop
  have hinit : ((single Unit).restrict fun s e => Calm () s e ∧ Closed () s e).Reachable
      (init Unit) := .init rfl
  have hreach := System.Reachable.of_replayIf (fun s e s' e' h => by
    obtain ⟨s₁, hnext, heq⟩ := Option.map_eq_some_iff.mp h
    cases heq
    exact step_of_next hnext) (fun s e h => guarded_spec h) hinit hs
  have hline := (print_loop Unit ()).2.2 s hreach
  rw [hthread] at hline
  refine ⟨s, hreach, by rw [hthread], by rw [hthread], ?_⟩
  rw [hthread]
  exact hline trivial .hello rfl

/-- A signal after the last character gives a second newline, and an
    interruption of the last newline leaves the line without one. -/
theorem late_signal_fails :
    (∃ s, (single Unit).Run (init Unit) lateRun s ∧
      s.thread () = ⟨.exited, true, true, some .hello, "Hello world\n\n".toList⟩ ∧
      .act () .failed ∉ lateRun ∧
      ¬ ∃ body, body <+: Msg.hello.text.dropLast ∧ (s.thread ()).out = body ++ ['\n']) ∧
    ∃ s, (single Unit).Run (init Unit) cutRun s ∧
      s.thread () = ⟨.exited, true, true, some .hello, "H".toList⟩ ∧
      .act () .failed ∉ cutRun ∧
      ¬ ∃ body, body <+: Msg.hello.text.dropLast ∧ (s.thread ()).out = body ++ ['\n'] := by
  have hlate : (replay (procs Unit) (init Unit) lateRun).any (fun s =>
      s.thread () == ⟨.exited, true, true, some .hello, "Hello world\n\n".toList⟩) = true := by
    decide +kernel
  have hcut : (replay (procs Unit) (init Unit) cutRun).any (fun s =>
      s.thread () == ⟨.exited, true, true, some .hello, "H".toList⟩) = true := by
    decide +kernel
  obtain ⟨s, hs, hprop⟩ := (Option.any_eq_true _ _).mp hlate
  obtain ⟨s', hs', hprop'⟩ := (Option.any_eq_true _ _).mp hcut
  have hthread := eq_of_beq hprop
  have hthread' := eq_of_beq hprop'
  refine ⟨⟨s, Run.of_replay hs, hthread, by decide, ?_⟩, s', Run.of_replay hs', hthread',
    by decide, ?_⟩
  · rintro ⟨body, hbody, hout⟩
    rw [hthread] at hout
    have hsplit : Msg.hello.text ++ ['\n'] = body ++ ['\n'] := hout
    rw [← List.append_cancel_right hsplit] at hbody
    exact absurd hbody.length_le (by decide)
  · rintro ⟨body, _, hout⟩
    rw [hthread'] at hout
    have hlast := congrArg List.getLast? hout
    rw [List.getLast?_concat] at hlast
    exact absurd hlast (by decide)

end Single
