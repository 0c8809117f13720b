import OsLessons.Bogatyr.Deadlock

/-! # The emergency stop

  With more distinct bytes than processes the conductor sends `DONE` to
  everybody and removes the queue. A worker expects an `ASSIGN` first: it ends
  in `bad ASSIGN` when it gets the `DONE`, and in `die` when the queue has been
  removed before. No worker ever leaves through its handling of `DONE`
  (`Refusing`), so the stop works only where there is no worker
  (`refusal_iff`).
-/

namespace Bogatyr

open Lts MsgQueue

/-! ### What the stop is for -/

/-- The emergency stop ends every worker through the protocol: nobody ends in
    `bad ASSIGN` or in `die`, and where nobody can move every process that is
    not the conductor has left after its `DONE`. -/
def Refuses (cfg : Config) : Prop := ∀ s, (choir cfg).Reachable s →
  (∀ p ∈ cfg.pids, (s.proc p).pc ≠ .exited .badASSIGN ∧ (s.proc p).pc ≠ .exited .died) ∧
  ((∀ p ∈ cfg.pids, next cfg s p = none) →
    ∀ p ∈ cfg.pids, (s.proc p).is_conductor = false → (s.proc p).pc = .exited .success)

/-- The program points of a choir that is refused. -/
def Pc.refusing : Pc → Bool
  | .register | .tryLock | .collect _ | .emergency _ _ | .awaitAssign => true
  | .exited e => e != .success
  | _ => false

section
variable {cfg : Config} {p : ℕ} {s s' : State} {call : Call Msg}

theorem lt_symbols (hmany : ¬ Fits cfg) : cfg.n < (collect_unique cfg.song 256).length := by
  have h : cfg.n < (symbols cfg).length := by
    rw [length_symbols]
    exact not_le.mp hmany
  exact h

/-! ### The code of a refused choir -/

/-- What is sent is neither an `ASSIGN` nor a `LOCK`. -/
theorem op_refusing_msgsnd {P : Proc} {m : Msg} {k : Bool → Proc} (hpc : P.pc.refusing = true)
    (hop : op cfg p P = .msgsnd m k) :
    m.kind ≠ .ASSIGN ∧ m.mtype ≠ MT_LOCK ∧ ∀ ok, (k ok).pc.refusing = true ∧
      (k ok).is_conductor = P.is_conductor := by
  obtain ⟨pc, lead, ch⟩ := P
  cases pc with
  | register =>
    cases hop
    refine ⟨by simp [regMsg], by simp [regMsg], fun ok => ?_⟩
    cases ok <;> exact ⟨rfl, rfl⟩
  | emergency pids i =>
    cases hi : pids[i]? with
    | none => simp [op, hi] at hop
    | some pid =>
      simp only [op, hi, Proc.xmsgsnd, Op.msgsnd.injEq] at hop
      obtain ⟨rfl, rfl⟩ := hop
      refine ⟨by simp [doneMsg], by simp [doneMsg], fun ok => ?_⟩
      cases ok <;> exact ⟨rfl, rfl⟩
  | collect pids =>
    simp only [op] at hop
    split_ifs at hop
    cases hop
  | tryLock | awaitAssign | exited => cases hop
  | _ => cases hpc

/-- Only a process that takes the `LOCK` becomes a conductor. -/
theorem op_refusing_msgrcv {P : Proc} {t : ℕ} {nowait : Bool} {k : Option Msg → Proc}
    (hpc : P.pc.refusing = true) (hop : op cfg p P = .msgrcv t nowait k) :
    ((k none).pc.refusing = true ∧ (k none).is_conductor = P.is_conductor) ∧
    ∀ m, m.kind ≠ .ASSIGN → (k (some m)).pc.refusing = true ∧
      ((k (some m)).is_conductor = P.is_conductor ∨ t = MT_LOCK) := by
  obtain ⟨pc, lead, ch⟩ := P
  cases pc with
  | tryLock =>
    cases hop
    refine ⟨⟨rfl, rfl⟩, fun m _ => ⟨?_, .inr rfl⟩⟩
    dsimp only
    split <;> rfl
  | collect pids =>
    simp only [op] at hop
    split_ifs at hop
    cases hop
    refine ⟨⟨rfl, rfl⟩, fun m _ => ⟨?_, .inl rfl⟩⟩
    by_cases hkind : m.kind = .REG <;> simp [hkind, Pc.refusing]
  | awaitAssign =>
    cases hop
    refine ⟨⟨rfl, rfl⟩, fun m hm => ?_⟩
    dsimp only
    rw [if_neg hm]
    exact ⟨rfl, .inl rfl⟩
  | emergency pids i =>
    cases hi : pids[i]? <;> simp [op, hi, Proc.xmsgsnd] at hop
  | register | exited => cases hop
  | _ => cases hpc

/-- With too many bytes the conductor goes from the registrations to the stop. -/
theorem op_refusing_rest (hmany : ¬ Fits cfg) {P k : Proc} (hpc : P.pc.refusing = true)
    (hop : op cfg p P = .compute k ∨ op cfg p P = .rmid k ∨ ∃ c, op cfg p P = .write c k) :
    k.pc.refusing = true ∧ k.is_conductor = P.is_conductor := by
  obtain ⟨pc, lead, ch⟩ := P
  cases pc with
  | collect pids =>
    simp only [op, lt_symbols hmany, ↓reduceIte] at hop
    split_ifs at hop
    · simp [Proc.xmsgrcv] at hop
    · obtain rfl : (_ : Proc) = k := by simpa using hop
      exact ⟨rfl, rfl⟩
  | emergency pids i =>
    cases hi : pids[i]? with
    | some pid => simp [op, hi, Proc.xmsgsnd] at hop
    | none =>
      obtain rfl : (_ : Proc) = k := by simpa [op, hi] using hop
      exact ⟨rfl, rfl⟩
  | register | tryLock | awaitAssign | exited => simp [op, Proc.xmsgsnd, Proc.xmsgrcv] at hop
  | _ => cases hpc

/-! ### No worker leaves by its `DONE` -/

/-- What holds in every reachable state of a refused choir. -/
structure Refused (s : State) : Prop where
  points : ∀ p, (s.proc p).pc.refusing = true
  letters : ∀ q ∈ s.queue, ∀ m ∈ q, m.kind ≠ .ASSIGN
  locks : ∀ q ∈ s.queue, (mail MT_LOCK q).length ≤ 1
  leader : ∀ p p', (s.proc p).is_conductor = true → (s.proc p').is_conductor = true → p' = p
  taken : ∀ p, (s.proc p).is_conductor = true → ∀ q ∈ s.queue, mail MT_LOCK q = []

theorem refused_init : Refused initState where
  points _ := rfl
  letters := by simp [initState, lockMsg]
  locks := by
    have hone : (mail MT_LOCK [lockMsg]).length = 1 := rfl
    simp [initState, hone]
  leader := by simp [initState]
  taken := by simp [initState]

/-- A step after which the mover conducts only if it did before. -/
theorem Refused.goto (h : Refused s) {P : Proc} (hpc : P.pc.refusing = true)
    (hlead : P.is_conductor = (s.proc p).is_conductor) {queue : Option (List Msg)}
    (out : List (ℕ × UInt8)) (hletters : ∀ q ∈ queue, ∀ m ∈ q, m.kind ≠ .ASSIGN)
    (hlocks : ∀ q' ∈ queue, ∃ q ∈ s.queue, mail MT_LOCK q' = mail MT_LOCK q) :
    Refused ((⟨queue, s.proc, out⟩ : State).goto p P) := by
  have hsame : ∀ p', ((⟨queue, s.proc, out⟩ : State).goto p P |>.proc p').is_conductor =
      (s.proc p').is_conductor := by
    intro p'
    by_cases hp : p' = p
    · subst hp
      rw [Host.goto_proc_self]
      exact hlead
    · rw [Host.goto_proc_ne _ _ hp]
  constructor
  · intro p'
    by_cases hp : p' = p
    · subst hp
      rw [Host.goto_proc_self]
      exact hpc
    · rw [Host.goto_proc_ne _ _ hp]
      exact h.points p'
  · exact hletters
  · intro q' hq'
    obtain ⟨q, hq, hsame⟩ := hlocks q' hq'
    rw [hsame]
    exact h.locks q hq
  · intro p₁ p₂ h₁ h₂
    rw [hsame] at h₁ h₂
    exact h.leader p₁ p₂ h₁ h₂
  · intro p₁ h₁ q' hq'
    rw [hsame] at h₁
    obtain ⟨q, hq, hsame⟩ := hlocks q' hq'
    rw [hsame]
    exact h.taken p₁ h₁ q hq

/-- A process takes the `LOCK`. -/
theorem Refused.elect (h : Refused s) {q q' : List Msg} (hq : s.queue = some q) {P : Proc} {m : Msg}
    (hrecv : recv Msg.mtype MT_LOCK q = some (m, q')) (hpc : P.pc.refusing = true) :
    Refused (({ s with queue := some q' } : State).goto p P) := by
  obtain ⟨_, hbox, _, hperm⟩ := recv_eq_some hrecv
  have hone := h.locks q hq
  have hcons : mail MT_LOCK q = m :: mail MT_LOCK q' := hbox
  -- nobody has been the conductor before
  have hnone : ∀ p', (s.proc p').is_conductor = false := by
    intro p'
    by_contra hlead
    have := h.taken p' (by simpa using hlead) q hq
    rw [hcons] at this
    cases this
  have hnil : mail MT_LOCK q' = [] := by
    rw [hcons, List.length_cons] at hone
    exact List.eq_nil_of_length_eq_zero (by omega)
  have honly : ∀ p', ((({ s with queue := some q' } : State).goto p P).proc p').is_conductor =
      true → p' = p := by
    intro p' hlead
    by_contra hp
    rw [Host.goto_proc_ne _ _ hp, hnone] at hlead
    cases hlead
  constructor
  · intro p'
    by_cases hp : p' = p
    · subst hp
      rw [Host.goto_proc_self]
      exact hpc
    · rw [Host.goto_proc_ne _ _ hp]
      exact h.points p'
  · intro q₁ hq₁ m' hm'
    obtain rfl : q' = q₁ := by simpa using hq₁
    exact h.letters q hq m' (hperm.symm.subset (List.mem_cons_of_mem _ hm'))
  · intro q₁ hq₁
    obtain rfl : q' = q₁ := by simpa using hq₁
    simp [hnil]
  · intro p₁ p₂ h₁ h₂
    rw [honly p₁ h₁, honly p₂ h₂]
  · intro p₁ _ q₁ hq₁
    obtain rfl : q' = q₁ := by simpa using hq₁
    exact hnil

/-- Any step of a choir with too many bytes keeps `Refused`. -/
theorem refused_step (hmany : ¬ Fits cfg) (h : Refused s) (hs : Moves cfg s p s' call) :
    Refused s' := by
  have hpoint := h.points p
  have hsame : ∀ q ∈ s.queue, ∃ q' ∈ s.queue, mail MT_LOCK q = mail MT_LOCK q' :=
    fun q hq => ⟨q, hq, rfl⟩
  cases hs with
  | @sent m k q hop hq hroom =>
    obtain ⟨hkind, htype, hk⟩ := op_refusing_msgsnd hpoint hop
    obtain ⟨hpc, hlead⟩ := hk true
    apply h.goto hpc hlead
    · intro q₁ hq₁ m' hm'
      obtain rfl : q ++ [m] = q₁ := by simpa using hq₁
      rcases List.mem_append.mp hm' with hm' | hm'
      · exact h.letters q hq m' hm'
      · rw [List.mem_singleton.mp hm']
        exact hkind
    · intro q₁ hq₁
      obtain rfl : q ++ [m] = q₁ := by simpa using hq₁
      exact ⟨q, hq, by simp [mail, box_snoc, htype]⟩
  | @received t nowait k q m q' hop hq hrecv =>
    obtain ⟨_, hbox, hother, hperm⟩ := recv_eq_some hrecv
    have hm : m.kind ≠ .ASSIGN := h.letters q hq m (hperm.symm.subset List.mem_cons_self)
    obtain ⟨hpc, hlead⟩ := (op_refusing_msgrcv hpoint hop).2 m hm
    rcases eq_or_ne t MT_LOCK with rfl | ht
    · exact h.elect hq hrecv hpc
    · apply h.goto hpc (hlead.resolve_right ht)
      · intro q₁ hq₁ m' hm'
        obtain rfl : q' = q₁ := by simpa using hq₁
        exact h.letters q hq m' (hperm.symm.subset (List.mem_cons_of_mem _ hm'))
      · intro q₁ hq₁
        obtain rfl : q' = q₁ := by simpa using hq₁
        exact ⟨q, hq, hother MT_LOCK (Ne.symm ht)⟩
  | enomsg hop hq _ =>
    obtain ⟨hpc, hlead⟩ := (op_refusing_msgrcv hpoint hop).1
    exact h.goto hpc hlead s.out h.letters hsame
  | not_sent hop hq =>
    obtain ⟨hpc, hlead⟩ := (op_refusing_msgsnd hpoint hop).2.2 false
    exact h.goto hpc hlead s.out h.letters hsame
  | not_received hop hq =>
    obtain ⟨hpc, hlead⟩ := (op_refusing_msgrcv hpoint hop).1
    exact h.goto hpc hlead s.out h.letters hsame
  | @wrote c k hop =>
    obtain ⟨hpc, hlead⟩ := op_refusing_rest hmany hpoint (.inr (.inr ⟨c, hop⟩))
    exact h.goto hpc hlead _ h.letters hsame
  | removed hop =>
    obtain ⟨hpc, hlead⟩ := op_refusing_rest hmany hpoint (.inr (.inl hop))
    exact h.goto hpc hlead s.out (by simp) (by simp)
  | computed hop =>
    obtain ⟨hpc, hlead⟩ := op_refusing_rest hmany hpoint (.inl hop)
    exact h.goto hpc hlead s.out h.letters hsame

theorem refused_reachable (hmany : ¬ Fits cfg) (h : (choir cfg).Reachable s) : Refused s :=
  (choir cfg).invariant (I := Refused)
    (fun s (hs : s = initState) => by rw [hs]; exact refused_init)
    (fun _ _ _ hi hs => refused_step hmany hi (step_of_next hs.2)) h

/-- No process of a refused choir leaves through its handling of `DONE`. -/
theorem Refused.not_success (h : Refused s) (p : ℕ) : (s.proc p).pc ≠ .exited .success := by
  intro hpc
  have := h.points p
  rw [hpc] at this
  cases this

/-- With a worker the stop fails in every run that goes on until nobody can move. -/
theorem not_refuses (hmany : ¬ Fits cfg) (htwo : 2 ≤ cfg.n) : ¬ Refuses cfg := by
  intro href
  obtain ⟨s, hreach, hlast⟩ := (choir cfg).exists_terminal _
    (fun _ _ _ _ hstep => choir_step_lt hstep) (.init rfl)
  have hrefused := refused_reachable hmany hreach
  have hstuck : ∀ p ∈ cfg.pids, next cfg s p = none := by
    intro p hp
    cases hnext : next cfg s p with
    | none => rfl
    | some r => exact absurd ⟨hp, hnext⟩ (hlast ⟨p, r.2⟩ r.1)
  have hleads : ∀ p ∈ cfg.pids, (s.proc p).is_conductor = true := by
    intro p hp
    by_contra hworker
    exact hrefused.not_success p ((href s hreach).2 hstuck p hp (by simpa using hworker))
  -- two processes, but only one conductor
  obtain ⟨p, hp, p', hp', hne⟩ := Finset.one_lt_card.mp htwo
  exact hne (hrefused.leader p' p (hleads p' hp') (hleads p hp))

/-! ### A conductor without workers -/

/-- The states of a refused choir of one process `a`. -/
inductive Solo (a : ℕ) (s : State) : Prop where
  | registers (proc : s.proc a = ⟨.register, false, 0⟩) (queue : s.queue = some [lockMsg])
  | tries (proc : s.proc a = ⟨.tryLock, false, 0⟩) (queue : s.queue = some [lockMsg, regMsg a])
  | collects (proc : s.proc a = ⟨.collect [], true, 0⟩) (queue : s.queue = some [regMsg a])
  | heard (proc : s.proc a = ⟨.collect [a], true, 0⟩) (queue : s.queue = some [])
  | stops (proc : s.proc a = ⟨.emergency [a] 0, true, 0⟩) (queue : s.queue = some [])
  | stopped (proc : s.proc a = ⟨.emergency [a] 1, true, 0⟩) (queue : s.queue = some [doneMsg a a])
  | ended (proc : s.proc a = ⟨.exited .emergency, true, 0⟩)

theorem op_collect_refused {heard : List ℕ} (hmany : ¬ Fits cfg) (hlen : ¬ heard.length < cfg.n) :
    op cfg p ⟨.collect heard, true, 0⟩ = .compute ⟨.emergency (qsort heard) 0, true, 0⟩ := by
  simp only [op]
  rw [if_neg hlen, if_pos (lt_symbols hmany)]
  rfl

theorem solo_step {a : ℕ} (hmany : ¬ Fits cfg) (hone : cfg.n = 1) (h : Solo a s)
    (hs : Moves cfg s a s' call) : Solo a s' := by
  cases h with
  | registers proc queue =>
    obtain ⟨_, _, rfl⟩ := hs.of_msgsnd (by rw [proc]; rfl) queue
    exact .tries (Host.goto_proc_self ..) rfl
  | tries proc queue =>
    rcases hs.of_poll (by rw [proc]; exact op_tryLock) queue with ⟨m, q', hrecv, _, rfl⟩ | ⟨hnone, _⟩
    · obtain ⟨rfl, rfl⟩ : lockMsg = m ∧ [regMsg a] = q' := by
        simpa [recv, lockMsg, regMsg] using hrecv
      exact .collects (Host.goto_proc_self ..) rfl
    · simp [recv, lockMsg] at hnone
  | collects proc queue =>
    have hlen : ([] : List ℕ).length < cfg.n := by simp [hone]
    obtain ⟨m, q', hrecv, _, rfl⟩ := hs.of_msgrcv (by rw [proc]; exact op_collect hlen) queue
    obtain ⟨rfl, rfl⟩ : regMsg a = m ∧ [] = q' := by simpa [recv, regMsg] using hrecv
    exact .heard (Host.goto_proc_self ..) rfl
  | heard proc queue =>
    have hlen : ¬ [a].length < cfg.n := by simp [hone]
    obtain ⟨_, rfl⟩ := hs.of_compute (by rw [proc]; exact op_collect_refused hmany hlen)
    exact .stops (Host.goto_proc_self ..) queue
  | stops proc queue =>
    obtain ⟨_, _, rfl⟩ := hs.of_msgsnd (by rw [proc]; rfl) queue
    exact .stopped (Host.goto_proc_self ..) rfl
  | stopped proc queue =>
    obtain ⟨_, rfl⟩ := hs.of_rmid (by rw [proc]; rfl)
    exact .ended (Host.goto_proc_self ..)
  | ended proc => exact absurd (by rw [proc]; rfl) hs.of_halt

/-- A single process always gets as far as conducting. -/
theorem Solo.conducts {a : ℕ} (h : Solo a s) (hcap : ∀ Q ∈ cfg.cap, 2 ≤ Q)
    (hstuck : next cfg s a = none) : (s.proc a).is_conductor = true := by
  cases h with
  | registers proc queue =>
    refine absurd (fun Q hQ => ?_) (full_of_stuck proc rfl queue hstuck)
    have := hcap Q hQ
    rw [List.length_singleton]
    omega
  | tries proc queue =>
    -- `IPC_NOWAIT` does not block
    exact absurd rfl (not_free_of_stuck proc op_tryLock hstuck)
  | collects proc | heard proc | stops proc | stopped proc | ended proc => rw [proc]

/-- Without a worker there is nobody whom the stop could miss. -/
theorem refuses_solo (hmany : ¬ Fits cfg) (hone : cfg.n = 1) (hcap : ∀ Q ∈ cfg.cap, 2 ≤ Q) :
    Refuses cfg := by
  obtain ⟨a, ha⟩ := Finset.card_eq_one.mp hone
  have honly : ∀ p ∈ cfg.pids, p = a := by
    intro p hp
    rwa [ha, Finset.mem_singleton] at hp
  intro s hreach
  have hsolo : Solo a s := (choir cfg).invariant (I := Solo a)
    (fun s (hs : s = initState) => by rw [hs]; exact .registers rfl rfl)
    (fun _ e _ hi hs => solo_step hmany hone hi (honly e.pid hs.1 ▸ step_of_next hs.2)) hreach
  constructor
  · intro p hp
    obtain rfl := honly p hp
    cases hsolo <;> simp [*]
  · intro hstuck p hp hworker
    obtain rfl := honly p hp
    rw [hsolo.conducts hcap (hstuck p hp)] at hworker
    cases hworker

end

/-- **The emergency stop.** In a choir whose song has more distinct bytes than
    there are processes, the stop ends every worker through the protocol if and
    only if there is no worker. -/
theorem refusal_iff (cfg : Config) (hpos : 1 ≤ cfg.n) (hcap : ∀ Q ∈ cfg.cap, 2 ≤ Q)
    (hmany : ¬ Fits cfg) : Refuses cfg ↔ cfg.n = 1 := by
  constructor
  · intro href
    by_contra hone
    exact not_refuses hmany (by omega) href
  · intro hone
    exact refuses_solo hmany hone hcap

/-- One process and a song of two bytes. -/
def soloist : Config where
  pids := {1}
  song := ⟨[104, 105], by decide⟩
  cap := none

theorem refusal_soloist : Refuses soloist :=
  (refusal_iff soloist (by decide) (by simp [soloist]) (by decide)).mpr (by decide)

/-- Two processes and a song of three bytes. -/
def refusedDuet : Config where
  pids := {1, 2}
  song := ⟨[97, 98, 99], by decide⟩
  cap := none

/-- Process 1 conducts and stops the choir. Process 2 gets its `DONE` where it
    expects an `ASSIGN`, or finds that the queue has been removed. -/
theorem stop_misses_worker :
    (∃ s, (choir refusedDuet).Reachable s ∧ (s.proc 1).pc = .exited .emergency ∧
      (s.proc 2).pc = .exited .badASSIGN) ∧
    ∃ s, (choir refusedDuet).Reachable s ∧ (s.proc 1).pc = .exited .emergency ∧
      (s.proc 2).pc = .exited .died := by
  constructor
  · have hrun : (System.replay (nextEvent refusedDuet) initState
        ([1, 1, 2, 2] ++ [1, 1, 1] ++ [1, 1, 2, 1])).any (fun r =>
          (r.1.proc 1).pc == .exited .emergency && (r.1.proc 2).pc == .exited .badASSIGN) =
        true := by
      decide +kernel
    obtain ⟨⟨s, es⟩, hs, hprop⟩ := (Option.any_eq_true _ _).mp hrun
    simp only [Bool.and_eq_true, beq_iff_eq] at hprop
    have h : (choir refusedDuet).Run initState es s :=
      System.Run.of_replay (fun _ _ _ _ => step_of_nextEvent) hs
    exact ⟨s, h.reachable (.init rfl), hprop⟩
  · have hrun : (System.replay (nextEvent refusedDuet) initState
        ([1, 1, 2] ++ [1, 1, 1] ++ [1, 1, 1] ++ [2, 2])).any (fun r =>
          (r.1.proc 1).pc == .exited .emergency && (r.1.proc 2).pc == .exited .died) = true := by
      decide +kernel
    obtain ⟨⟨s, es⟩, hs, hprop⟩ := (Option.any_eq_true _ _).mp hrun
    simp only [Bool.and_eq_true, beq_iff_eq] at hprop
    have h : (choir refusedDuet).Run initState es s :=
      System.Run.of_replay (fun _ _ _ _ => step_of_nextEvent) hs
    exact ⟨s, h.reachable (.init rfl), hprop⟩

end Bogatyr
