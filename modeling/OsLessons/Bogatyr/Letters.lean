import OsLessons.Bogatyr.Invariant

/-! # Letters and answers

  What a step does to the mailboxes once everybody has registered. The
  conductor posts a letter (`Choir.post`), takes an answer (`Choir.hear`) or
  leaves the queue alone (`Choir.stay`); `Choir.worker_step` lists the steps of
  a worker.
-/

namespace Bogatyr

open Lts MsgQueue

section choir
variable {cfg : Config} {c p : ℕ} {sent : ℕ → List Msg} {acks : List Msg} {s s' : State}
  {q q' : List Msg} {P : Proc} {call : Call Msg}

/-- Only the letters to processes of the choir matter. -/
theorem Choir.congr (h : Choir cfg c sent acks s q) (hc : c ∈ cfg.pids)
    {sent' : ℕ → List Msg} (hsent : ∀ p ∈ cfg.pids, sent p = sent' p) :
    Choir cfg c sent' acks s q where
  queue := h.queue
  lock := h.lock
  reg := h.reg
  ack := h.ack
  own := h.own.trans (hsent c hc)
  follows := by
    intro p hp hpc
    rw [← hsent p hp]
    exact h.follows p hp hpc
  script := by
    intro p hp hpc
    rw [← hsent p hp]
    exact h.script p hp hpc
  types := h.types

/-! ### The conductor -/

/-- The conductor moves without touching the queue. -/
theorem Choir.stay (h : Choir cfg c sent acks s q) (P : Proc) (out : List (ℕ × UInt8)) :
    Choir cfg c sent acks ((⟨s.queue, s.proc, out⟩ : State).goto c P) q where
  queue := h.queue
  lock := h.lock
  reg := h.reg
  ack := h.ack
  own := h.own
  follows := by
    intro p hp hpc
    rw [Host.goto_proc_ne _ _ hpc]
    exact h.follows p hp hpc
  script := h.script
  types := h.types

/-- A worker that has answered everything but at most one letter can get another. -/
theorem Follows.post {l mail : List Msg} (h : Follows cfg c p l P mail) (hl : l.length ≤ 1)
    (m : Msg) : Follows cfg c p (l ++ [m]) P (mail ++ [m]) := by
  cases h with
  | locking => exact .locking _
  | waiting => exact .waiting _
  | ready mail => exact .ready (mail ++ [m])
  | turned | sung | dismissed | left => simp at hl

/-- The conductor posts a letter to process `p`, itself included. -/
theorem Choir.post (h : Choir cfg c sent acks s q) (hp : p ∈ cfg.pids) {m : Msg}
    (hm : m.mtype = MT_TO p)
    (hnew : p ≠ c → (sent p).length ≤ 1 ∧ Script cfg c p (sent p ++ [m])) (P : Proc) :
    Choir cfg c (Function.update sent p (sent p ++ [m])) acks
      (({ s with queue := some (q ++ [m]) } : State).goto c P) (q ++ [m]) where
  queue := rfl
  lock := by simpa [mail, box_snoc, hm] using h.lock
  reg := by simpa [mail, box_snoc, hm] using h.reg
  ack := by simpa [mail, box_snoc, hm] using h.ack
  own := by
    by_cases hpc : c = p
    · subst hpc
      simpa [mail, box_snoc, hm] using h.own
    · simpa [mail, box_snoc, hm, MT_TO_inj, Ne.symm hpc, hpc] using h.own
  follows := by
    intro p' hp' hpc'
    rw [Host.goto_proc_ne _ _ hpc']
    by_cases heq : p' = p
    · subst heq
      have hpost := (h.follows p' hp' hpc').post (hnew hpc').1 m
      simpa [mail, box_snoc, hm] using hpost
    · simpa [mail, box_snoc, hm, MT_TO_inj, Ne.symm heq, heq] using h.follows p' hp' hpc'
  script := by
    intro p' hp' hpc'
    by_cases heq : p' = p
    · subst heq
      simpa using (hnew hpc').2
    · simpa [heq] using h.script p' hp' hpc'
  types := by
    intro m' hm'
    rcases List.mem_append.mp hm' with hm' | hm'
    · exact h.types m' hm'
    · rw [List.mem_singleton.mp hm', hm]
      exact MT_TO_mem_types hp

/-- The conductor takes the first answer. -/
theorem Choir.hear (h : Choir cfg c sent acks s q) {m : Msg}
    (hrecv : recv Msg.mtype MT_ACK q = some (m, q')) :
    ∃ acks', acks = m :: acks' ∧ ∀ P,
      Choir cfg c sent acks' (({ s with queue := some q' } : State).goto c P) q' := by
  obtain ⟨_, hbox, hother, hperm⟩ := recv_eq_some hrecv
  have hsame : ∀ p, mail (MT_TO p) q' = mail (MT_TO p) q := fun p =>
    hother (MT_TO p) (MT_TO_ne_ACK p)
  refine ⟨mail MT_ACK q', h.ack.symm.trans hbox, fun P => ⟨rfl, ?_, ?_, rfl, ?_, ?_, h.script, ?_⟩⟩
  · exact (hother MT_LOCK (by simp)).trans h.lock
  · exact (hother MT_REG (by simp)).trans h.reg
  · exact (hsame c).trans h.own
  · intro p hp hpc
    rw [Host.goto_proc_ne _ _ hpc, hsame]
    exact h.follows p hp hpc
  · intro m' hm'
    exact h.types m' (hperm.symm.subset (List.mem_cons_of_mem _ hm'))

/-! ### The workers -/

/-- A worker moves, taking at most letters from its own mailbox. -/
theorem Choir.work (h : Choir cfg c sent acks s q) (hpc : p ≠ c)
    (hproc : s'.proc = Function.update s.proc p P) (hqueue : s'.queue = some q')
    (hother : ∀ t ≠ MT_TO p, mail t q' = mail t q) (hsub : ∀ m ∈ q', m ∈ q)
    (hfollows : Follows cfg c p (sent p) P (mail (MT_TO p) q')) :
    Choir cfg c sent acks s' q' where
  queue := hqueue
  lock := (hother MT_LOCK (by simp)).trans h.lock
  reg := (hother MT_REG (by simp)).trans h.reg
  ack := (hother MT_ACK (by simp)).trans h.ack
  own := (hother (MT_TO c) (by simpa [MT_TO_inj] using hpc.symm)).trans h.own
  follows := by
    intro p' hp' hpc'
    rw [hproc]
    by_cases heq : p' = p
    · subst heq
      rw [Function.update_self]
      exact hfollows
    · rw [Function.update_of_ne heq, hother _ (by simpa [MT_TO_inj] using heq)]
      exact h.follows p' hp' hpc'
  script := h.script
  types := fun m hm => h.types m (hsub m hm)

/-- A worker answers; `l` are the letters that stay unanswered. -/
theorem Choir.answer (h : Choir cfg c sent acks s q) (hpc : p ≠ c) {m : Msg}
    (hm : m.mtype = MT_ACK) (hproc : s'.proc = Function.update s.proc p P)
    (hqueue : s'.queue = some (q ++ [m])) {l : List Msg} (hscript : Script cfg c p l)
    (hfollows : Follows cfg c p l P (mail (MT_TO p) q)) :
    Choir cfg c (Function.update sent p l) (acks ++ [m]) s' (q ++ [m]) where
  queue := hqueue
  lock := by simpa [mail, box_snoc, hm] using h.lock
  reg := by simpa [mail, box_snoc, hm] using h.reg
  ack := by simpa [mail, box_snoc, hm] using h.ack
  own := by simpa [mail, box_snoc, hm, hpc.symm] using h.own
  follows := by
    intro p' hp' hpc'
    rw [hproc]
    by_cases heq : p' = p
    · subst heq
      simpa [mail, box_snoc, hm] using hfollows
    · simpa [mail, box_snoc, hm, heq] using h.follows p' hp' hpc'
  script := by
    intro p' hp' hpc'
    by_cases heq : p' = p
    · subst heq
      simpa using hscript
    · simpa [heq] using h.script p' hp' hpc'
  types := by
    intro m' hm'
    rcases List.mem_append.mp hm' with hm' | hm'
    · exact h.types m' hm'
    · rw [List.mem_singleton.mp hm', hm]
      exact MT_ACK_mem_types

/-- What a step of worker `p` can be. -/
inductive WorkerStep (cfg : Config) (c : ℕ) (sent : ℕ → List Msg) (acks : List Msg) (s : State)
    (p : ℕ) (s' : State) (call : Call Msg) : Prop where
  /-- it tries the lock or takes a letter -/
  | quiet (q' : List Msg) (choir : Choir cfg c sent acks s' q') (out : s'.out = s.out)
      (before : ∀ seq, (s.proc p).pc ≠ .sendAck seq) (after : ∀ seq, (s'.proc p).pc ≠ .sendAck seq)
      (stays : (s.proc p).pc ≠ .exited .success ∧ (s'.proc p).pc ≠ .exited .success)
  /-- it writes the byte it has been asked for, if it is its own -/
  | sang (seq : ℕ) (ch : UInt8) (q' : List Msg)
      (letters : sent p = [assignMsg c p (assigned cfg p), turnMsg c p seq ch])
      (choir : Choir cfg c sent acks s' q')
      (before : ∀ seq, (s.proc p).pc ≠ .sendAck seq) (after : (s'.proc p).pc = .sendAck seq)
      (out : s'.out = s.out ++
        if assigned cfg p ≠ 0 ∧ ch = assigned cfg p then [(p, ch)] else [])
  /-- it sends its `ACK` -/
  | acked (seq : ℕ) (ch : UInt8) (q' : List Msg)
      (letters : sent p = [assignMsg c p (assigned cfg p), turnMsg c p seq ch])
      (choir : Choir cfg c (Function.update sent p [assignMsg c p (assigned cfg p)])
        (acks ++ [ackMsg p seq]) s' q')
      (before : (s.proc p).pc = .sendAck seq) (out : s'.out = s.out)
  /-- it sends its `BYE` -/
  | left (q' : List Msg) (letters : sent p = [assignMsg c p (assigned cfg p), doneMsg c p])
      (choir : Choir cfg c sent (acks ++ [byeMsg p]) s' q')
      (before : (s.proc p).pc = .sendBye) (after : (s'.proc p).pc = .exited .success)
      (out : s'.out = s.out) (sent_bye : call = .sent (byeMsg p))

/-- A worker that waits for a letter has got `m`; `rest` is still in its mailbox. -/
theorem Choir.take (h : Choir cfg c sent acks s q) (hpc : p ≠ c) {m : Msg}
    (hrecv : recv Msg.mtype (MT_TO p) q = some (m, q')) :
    mail (MT_TO p) q = m :: mail (MT_TO p) q' ∧
      ∀ P, Follows cfg c p (sent p) P (mail (MT_TO p) q') →
        Choir cfg c sent acks (({ s with queue := some q' } : State).goto p P) q' := by
  obtain ⟨_, hbox, hother, hperm⟩ := recv_eq_some hrecv
  exact ⟨hbox, fun P hf => h.work hpc rfl rfl hother
    (fun m hm => hperm.symm.subset (List.mem_cons_of_mem _ hm)) hf⟩

/-- The `LOCK` is gone. -/
theorem Choir.locking_step (h : Choir cfg c sent acks s q) (hpc : p ≠ c)
    (hproc : s.proc p = ⟨.tryLock, false, 0⟩)
    (hfollows : Follows cfg c p (sent p) ⟨.awaitAssign, false, 0⟩ (mail (MT_TO p) q))
    (hs : Moves cfg s p s' call) : WorkerStep cfg c sent acks s p s' call := by
  rcases hs.of_poll (by rw [hproc]; exact op_tryLock) h.queue with
    ⟨m, q', hrecv, _, _⟩ | ⟨_, _, rfl⟩
  · have hbox : mail MT_LOCK q = m :: mail MT_LOCK q' := (recv_eq_some hrecv).2.1
    rw [h.lock] at hbox
    cases hbox
  · refine .quiet q (h.work hpc rfl h.queue (fun _ _ => rfl) (fun _ hm => hm) hfollows)
      rfl ?_ ?_ ?_
    · simp [hproc]
    · simp
    · simp [hproc]

/-- The first letter is the `ASSIGN`. -/
theorem Choir.waiting_step (h : Choir cfg c sent acks s q) (hpc : p ≠ c)
    (hproc : s.proc p = ⟨.awaitAssign, false, 0⟩) (hl : sent p = mail (MT_TO p) q)
    (hscript : Script cfg c p (sent p)) (hs : Moves cfg s p s' call) :
    WorkerStep cfg c sent acks s p s' call := by
  obtain ⟨m, q', hrecv, _, rfl⟩ := hs.of_msgrcv (by rw [hproc]; exact op_awaitAssign) h.queue
  obtain ⟨hbox, htake⟩ := h.take hpc hrecv
  have hcons : sent p = m :: mail (MT_TO p) q' := hl.trans hbox
  obtain rfl : m = assignMsg c p (assigned cfg p) := by
    generalize mail (MT_TO p) q' = rest at hcons
    rw [hcons] at hscript
    cases hscript <;> rfl
  refine .quiet q' (htake _ ?_) rfl ?_ ?_ ?_
  · rw [hcons]
    exact .ready _
  · simp [hproc]
  · simp [assignMsg]
  · simp [hproc, assignMsg]

/-- The second letter is a `TURN` or a `DONE`. -/
theorem Choir.ready_step (h : Choir cfg c sent acks s q) (hpc : p ≠ c)
    (hproc : s.proc p = ⟨.ready, false, assigned cfg p⟩)
    (hl : sent p = assignMsg c p (assigned cfg p) :: mail (MT_TO p) q)
    (hscript : Script cfg c p (sent p)) (hs : Moves cfg s p s' call) :
    WorkerStep cfg c sent acks s p s' call := by
  obtain ⟨m, q', hrecv, _, rfl⟩ := hs.of_msgrcv (by rw [hproc]; exact op_ready p) h.queue
  obtain ⟨hbox, htake⟩ := h.take hpc hrecv
  rw [hbox] at hl
  generalize hsent : sent p = l at hl hscript
  generalize hrest : mail (MT_TO p) q' = rest at hl
  cases hscript with
  | nothing | assign => cases hl
  | turn seq ch =>
    cases hl
    refine .quiet q' (htake ⟨.turned seq ch, false, assigned cfg p⟩ ?_) rfl ?_ ?_ ?_
    · rw [hsent, hrest]
      exact .turned seq ch
    · simp [hproc]
    · simp [turnMsg]
    · simp [hproc, turnMsg]
  | done =>
    cases hl
    refine .quiet q' (htake ⟨.sendBye, false, assigned cfg p⟩ ?_) rfl ?_ ?_ ?_
    · rw [hsent, hrest]
      exact .dismissed
    · simp [hproc]
    · simp [doneMsg]
    · simp [hproc, doneMsg]

/-- The test `my_ch != 0 && m.ch == my_ch`. -/
theorem Choir.turned_step (h : Choir cfg c sent acks s q) (hpc : p ≠ c) {seq : ℕ} {ch : UInt8}
    (hproc : s.proc p = ⟨.turned seq ch, false, assigned cfg p⟩)
    (hl : sent p = [assignMsg c p (assigned cfg p), turnMsg c p seq ch])
    (hmail : mail (MT_TO p) q = []) (hs : Moves cfg s p s' call) :
    WorkerStep cfg c sent acks s p s' call := by
  have hsung : Follows cfg c p (sent p) ⟨.sendAck seq, false, assigned cfg p⟩
      (mail (MT_TO p) q) := by
    rw [hmail, hl]
    exact .sung seq ch
  by_cases hown : assigned cfg p ≠ 0 ∧ ch = assigned cfg p
  · have hop : op cfg p (s.proc p) = .write ch ⟨.sendAck seq, false, assigned cfg p⟩ := by
      rw [hproc]
      exact if_pos hown
    obtain ⟨_, rfl⟩ := hs.of_write hop
    refine .sang seq ch q hl (h.work hpc rfl h.queue (fun _ _ => rfl) (fun _ hm => hm) hsung)
      ?_ ?_ ?_
    · simp [hproc]
    · simp
    · simp [hown]
  · have hop : op cfg p (s.proc p) = .compute ⟨.sendAck seq, false, assigned cfg p⟩ := by
      rw [hproc]
      exact if_neg hown
    obtain ⟨_, rfl⟩ := hs.of_compute hop
    refine .sang seq ch q hl (h.work hpc rfl h.queue (fun _ _ => rfl) (fun _ hm => hm) hsung)
      ?_ ?_ ?_
    · simp [hproc]
    · simp
    · simp [hown]

theorem Choir.sung_step (h : Choir cfg c sent acks s q) (hpc : p ≠ c) {seq : ℕ} {ch : UInt8}
    (hproc : s.proc p = ⟨.sendAck seq, false, assigned cfg p⟩)
    (hl : sent p = [assignMsg c p (assigned cfg p), turnMsg c p seq ch])
    (hmail : mail (MT_TO p) q = []) (hs : Moves cfg s p s' call) :
    WorkerStep cfg c sent acks s p s' call := by
  have hop : op cfg p (s.proc p) = .msgsnd (ackMsg p seq) fun ok =>
      ⟨if ok then .ready else .exited .died, false, assigned cfg p⟩ := by
    rw [hproc]
    rfl
  obtain ⟨_, _, rfl⟩ := hs.of_msgsnd hop h.queue
  refine .acked seq ch (q ++ [ackMsg p seq]) hl (h.answer hpc rfl rfl rfl .assign ?_) ?_ rfl
  · rw [hmail]
    exact .ready []
  · rw [hproc]

theorem Choir.dismissed_step (h : Choir cfg c sent acks s q) (hpc : p ≠ c)
    (hproc : s.proc p = ⟨.sendBye, false, assigned cfg p⟩)
    (hl : sent p = [assignMsg c p (assigned cfg p), doneMsg c p])
    (hmail : mail (MT_TO p) q = []) (hs : Moves cfg s p s' call) :
    WorkerStep cfg c sent acks s p s' call := by
  have hop : op cfg p (s.proc p) = .msgsnd (byeMsg p) fun ok =>
      ⟨if ok then .exited .success else .exited .died, false, assigned cfg p⟩ := by
    rw [hproc]
    rfl
  obtain ⟨_, hcall, rfl⟩ := hs.of_msgsnd hop h.queue
  have hchoir : Choir cfg c _ _ (({ s with queue := some (q ++ [byeMsg p]) } : State).goto p
      ⟨.exited .success, false, assigned cfg p⟩) _ :=
    h.answer hpc rfl rfl rfl Script.done (by
      rw [hmail]
      exact .left)
  refine .left (q ++ [byeMsg p]) hl ?_ ?_ ?_ rfl hcall
  · rw [← hl, Function.update_eq_self] at hchoir
    exact hchoir
  · rw [hproc]
  · simp

/-- A step of a worker, from the program point where it is. -/
theorem Choir.worker_step (h : Choir cfg c sent acks s q) (hp : p ∈ cfg.pids) (hpc : p ≠ c)
    (hs : Moves cfg s p s' call) : WorkerStep cfg c sent acks s p s' call := by
  have hfollows := h.follows p hp hpc
  have hscript := h.script p hp hpc
  generalize hproc : s.proc p = P at hfollows
  generalize hmail : mail (MT_TO p) q = letters at hfollows
  generalize hl : sent p = l at hfollows
  cases hfollows with
  | locking =>
    refine h.locking_step hpc hproc ?_ hs
    rw [hmail, hl]
    exact .waiting _
  | waiting => exact h.waiting_step hpc hproc (hl.trans hmail.symm) hscript hs
  | ready => exact h.ready_step hpc hproc (by rw [hl, hmail]) hscript hs
  | turned seq ch => exact h.turned_step hpc hproc hl hmail hs
  | sung seq ch => exact h.sung_step hpc hproc hl hmail hs
  | dismissed => exact h.dismissed_step hpc hproc hl hmail hs
  | left =>
    have hop : op cfg p (s.proc p) = .halt := by
      rw [hproc]
      rfl
    exact absurd hop hs.of_halt

end choir

end Bogatyr
