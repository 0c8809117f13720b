import OsLessons.Bogatyr.Progress

/-! # `DONE` against `BYE`

  The conductor sends all its `DONE`s before it reads the first `BYE`, and its
  own `ASSIGN`, which it never reads, stays in the queue. With more processes
  than the queue holds messages this can get stuck: let the workers always move
  first (`Eager`), and the queue fills with `BYE`s before the last `DONE` is
  sent. Since every run ends (`choir_terminates`), such a run ends stuck.

  `deadlock_free_iff` states both directions.
-/

namespace Bogatyr

open Lts MsgQueue

/-! ### Every run ends -/

/-- Weight of a message: what its receiver may spend on it. -/
def msgWeight (cfg : Config) (m : Msg) : ℕ :=
  match m.kind with
  | .LOCK => 5 * cfg.song.bytes.length + 5 * cfg.n + 6
  | .TURN => 4
  | .DONE => 2
  | _ => 1

/-- Weight of a program point: what is left to do from there, for a conductor
    including the letters it will send. -/
def pcWeight (cfg : Config) : Pc → ℕ
  | .register => 5
  | .tryLock => 3
  | .collect pids => 5 * cfg.song.bytes.length + 5 * max cfg.n pids.length + 6
  | .emergency pids i => 3 * (pids.length - i) + 1
  | .assign pids i => 2 * (pids.length - i) + 5 * cfg.song.bytes.length + 3 * pids.length + 5
  | .sing pids seq => 5 * (cfg.song.bytes.length - seq) + 3 * pids.length + 4
  | .awaitAck pids seq => 5 * (cfg.song.bytes.length - (seq + 1)) + 3 * pids.length + 4
  | .dismiss pids i => 3 * (pids.length - i) + 2
  | .awaitBye _ => 1
  | .awaitAssign => 2
  | .ready => 1
  | .turned _ _ => 4
  | .sendAck _ => 3
  | .sendBye => 2
  | .exited _ => 0

theorem length_qsort (pids : List ℕ) : (qsort pids).length = pids.length :=
  List.length_insertionSort _ _

section
variable {cfg : Config} {c p i : ℕ} {s s' : State} {call : Call Msg}

theorem one_le_msgWeight (m : Msg) : 1 ≤ msgWeight cfg m := by
  unfold msgWeight
  split <;> omega

section weights
variable (cfg) (pid seq : ℕ) (ch : UInt8)

@[simp] theorem msgWeight_regMsg : msgWeight cfg (regMsg p) = 1 := rfl
@[simp] theorem msgWeight_assignMsg : msgWeight cfg (assignMsg p pid ch) = 1 := rfl
@[simp] theorem msgWeight_turnMsg : msgWeight cfg (turnMsg p pid seq ch) = 4 := rfl
@[simp] theorem msgWeight_doneMsg : msgWeight cfg (doneMsg p pid) = 2 := rfl
@[simp] theorem msgWeight_ackMsg : msgWeight cfg (ackMsg p seq) = 1 := rfl
@[simp] theorem msgWeight_byeMsg : msgWeight cfg (byeMsg p) = 1 := rfl

end weights

theorem lt_of_getElem? {α : Type*} {l : List α} {i : ℕ} {a : α} (h : l[i]? = some a) :
    i < l.length := (List.getElem?_eq_some_iff.mp h).1

/-- Every process pays for what it does. -/
theorem op_pays (P : Proc) :
    (op cfg p P).Pays (fun P => pcWeight cfg P.pc) (msgWeight cfg) P := by
  have hone : ∀ m, 1 ≤ msgWeight cfg m := one_le_msgWeight
  fun_cases op cfg p P
  all_goals simp [Op.Pays, Proc.xmsgsnd, Proc.xmsgrcv, pcWeight, length_qsort, *]
  -- the `LOCK` pays for everything the conductor will do
  · intro m
    by_cases hkind : m.kind = .LOCK
    · simp [hkind, msgWeight]
    · have := hone m
      simp [hkind]
      omega
  · next hlen =>
    intro m
    have := hone m
    by_cases hkind : m.kind = .REG
    · simp [hkind, max_eq_left (Nat.succ_le_of_lt hlen), max_eq_left hlen.le]
      omega
    · simp [hkind]
  · omega
  · omega
  · next hi =>
    have := lt_of_getElem? hi
    omega
  · next hi _ =>
    have := lt_of_getElem? hi
    omega
  · next hi _ _ =>
    have := lt_of_getElem? hi
    omega
  · next hi _ _ =>
    have := lt_of_getElem? hi
    omega
  · next hi _ _ _ =>
    have := lt_of_getElem? hi
    omega
  · next hi _ =>
    have := lt_of_getElem? hi
    omega
  · omega
  · omega
  · next seq _ =>
    intro m
    have := hone m
    by_cases hack : m.kind = .ACK ∧ m.seq = seq
    · simp [hack]
      omega
    · simp [hack]
  · next hi =>
    have := lt_of_getElem? hi
    omega
  · next hi _ =>
    have := lt_of_getElem? hi
    omega
  · exact hone
  · intro m
    have := hone m
    by_cases hkind : m.kind = .ASSIGN
    · simp [hkind]
      omega
    · simp [hkind]
  · intro m
    have := hone m
    cases hkind : m.kind <;> simp [msgWeight, hkind]

theorem choir_step_lt {e : Event} (h : (choir cfg).step s e s') :
    weight (fun P => pcWeight cfg P.pc) (msgWeight cfg) cfg.pids s' <
      weight (fun P => pcWeight cfg P.pc) (msgWeight cfg) cfg.pids s :=
  (step_of_next h.2).weight_lt _ _ h.1 (op_pays _)

/-- Every run of a choir ends, after a number of steps that is linear in the
    number of processes and the length of the song. -/
theorem choir_terminates {es : List Event} (h : (choir cfg).Run initState es s) :
    es.length ≤ 5 * cfg.n + (5 * cfg.song.bytes.length + 5 * cfg.n + 6) := by
  have hlen := h.length_le _ (fun _ _ _ _ hs => choir_step_lt hs) (.init rfl)
  have hinit : weight (fun P => pcWeight cfg P.pc) (msgWeight cfg) cfg.pids initState =
      5 * cfg.n + (5 * cfg.song.bytes.length + 5 * cfg.n + 6) := by
    simp [weight, initState, pcWeight, msgWeight, lockMsg, Config.n, mul_comm]
  omega

/-! ### Workers first -/

/-- The workers that have been sent their `DONE`, by the index of the loop. -/
def dismissed (cfg : Config) (c i : ℕ) : Finset ℕ :=
  cfg.pids.filter fun p => p ∈ (order cfg).take i ∧ p ≠ c

theorem dismissed_self (hi : (order cfg)[i]? = some c) :
    dismissed cfg c (i + 1) = dismissed cfg c i := by
  refine Finset.filter_congr fun p _ => ?_
  rw [mem_take_succ hi]
  by_cases hp : p = c <;> simp [hp]

theorem card_dismissed_succ {pid : ℕ} (hi : (order cfg)[i]? = some pid) :
    (dismissed cfg c (i + 1)).card ≤ (dismissed cfg c i).card + 1 := by
  have hsub : dismissed cfg c (i + 1) ⊆ insert pid (dismissed cfg c i) := by
    intro p hp
    obtain ⟨hp, hmem, hpc⟩ := Finset.mem_filter.mp hp
    rcases (mem_take_succ hi p).mp hmem with hmem | rfl
    · exact Finset.mem_insert_of_mem (Finset.mem_filter.mpr ⟨hp, hmem, hpc⟩)
    · exact Finset.mem_insert_self _ _
  exact (Finset.card_le_card hsub).trans (Finset.card_insert_le _ _)

theorem card_dismissed_end (hc : c ∈ cfg.pids) (hi : (order cfg)[i]? = none) :
    (dismissed cfg c i).card = cfg.n - 1 := by
  have hset : dismissed cfg c i = cfg.pids.erase c := by
    ext p
    simp only [dismissed, Finset.mem_filter, Finset.mem_erase, mem_take_of_none hi]
    tauto
  rw [hset, Finset.card_erase_of_mem hc]
  rfl

/-- The schedules in which a conductor in its `DONE` loop moves only when
    nobody else can. -/
def Eager (cfg : Config) (s : State) (e : Event) : Prop :=
  (∃ pids i, (s.proc e.pid).pc = .dismiss pids i) →
    ∀ p ∈ cfg.pids, p ≠ e.pid → next cfg s p = none

/-- Program points of a conductor that has not come past `Q - 1` `DONE`s. -/
def Short (cfg : Config) (Q c : ℕ) : Pc → Prop
  | .dismiss _ i => (dismissed cfg c i).card < Q
  | .awaitBye _ => False
  | .exited .success => False
  | _ => True

/-- Apart from the `DONE` loop, a conductor stays short of `Q` `DONE`s. -/
theorem op_short {Q : ℕ} (hQ : 0 < Q) {P : Proc} (hbye : P.pc ≠ .sendBye)
    (hdismiss : ∀ pids i, P.pc ≠ .dismiss pids i) (hshort : Short cfg Q p P.pc) :
    (op cfg p P).Then fun P' => Short cfg Q p P'.pc := by
  have hempty : (dismissed cfg p 0).card = 0 := by simp [dismissed]
  fun_cases op cfg p P
  all_goals simp [Short, *] at hshort ⊢
  · intro m
    split_ifs <;> simp
  · intro m
    split_ifs <;> simp
  · intro m
    split_ifs <;> simp
  · next hpc _ => exact absurd hpc (hdismiss _ _)
  · next hpc _ _ _ => exact absurd hpc (hdismiss _ _)
  · next hpc _ => exact absurd hpc (hdismiss _ _)
  · intro m
    split_ifs <;> simp
  · intro m
    cases m.kind <;> simp
  · next hpc => exact absurd hpc hbye

/-- In the `DONE` loop of an eager schedule, every `DONE` that has been sent has
    been answered, and the conductor never gets room for `DONE` number `Q`. -/
theorem short_dismissing {Q : ℕ} (hcap : cfg.cap = some Q) (hn : Q < cfg.n) {acks q : List Msg}
    (hc : c ∈ cfg.pids) (proc : s.proc c = ⟨.dismiss (order cfg) i, true, assigned cfg c⟩)
    (choir : Choir cfg c (dones cfg c i) acks s q)
    (count : acks.length = (leavers cfg c s).card)
    (hshort : (dismissed cfg c i).card < Q)
    (heager : ∀ p ∈ cfg.pids, p ≠ c → next cfg s p = none)
    (hs : Moves cfg s c s' call) : Short cfg Q c (s'.proc c).pc := by
  cases hi : (order cfg)[i]? with
  | some pid =>
    by_cases hself : pid = c
    · subst hself
      obtain ⟨_, rfl⟩ := hs.of_compute (by rw [proc]; exact op_dismiss_self hi)
      rw [Host.goto_proc_self]
      show (dismissed cfg pid (i + 1)).card < Q
      rwa [dismissed_self hi]
    · obtain ⟨hroom, _, rfl⟩ := hs.of_msgsnd (by rw [proc]; exact op_dismiss hi hself) choir.queue
      rw [Host.goto_proc_self]
      show (dismissed cfg c (i + 1)).card < Q
      -- whoever has a `DONE` could answer it, so it has
      have hsub : dismissed cfg c i ⊆ leavers cfg c s := by
        intro p hp
        obtain ⟨hp, hmem, hpc⟩ := Finset.mem_filter.mp hp
        have hsent : dones cfg c i p = [assignMsg c p (assigned cfg p), doneMsg c p] :=
          if_pos ⟨hmem, hpc⟩
        refine Finset.mem_filter.mpr ⟨Finset.mem_erase.mpr ⟨hpc, hp⟩, ?_⟩
        rcases (choir.stuck hp hpc (heager p hp hpc)).2 with hlen | ⟨hfull, _⟩ | ⟨hleft, _⟩
        · simp [hsent] at hlen
        · exact absurd hroom hfull
        · exact hleft
      have hlen := choir.length_eq hc fun p hp hpc => (choir.stuck hp hpc (heager p hp hpc)).1
      have hown : dones cfg c i c = [assignMsg c c (assigned cfg c)] := if_neg fun h => h.2 rfl
      rw [hown, count, List.length_singleton] at hlen
      have hlt := lt_of_room hcap hroom
      have hsucc := card_dismissed_succ (c := c) hi
      have hle := Finset.card_le_card hsub
      omega
  | none =>
    have := card_dismissed_end hc hi
    omega

/-- Conductors stay short of `Q` `DONE`s in eager schedules. -/
def ShortOf (cfg : Config) (Q : ℕ) (s : State) : Prop :=
  ∀ c ∈ cfg.pids, (s.proc c).is_conductor = true → Short cfg Q c (s.proc c).pc

/-- Only a process that takes the `LOCK` becomes a conductor. -/
theorem op_becomes_conductor {P : Proc} (hworker : P.is_conductor = false) :
    (op cfg p P).Then fun P' => P'.is_conductor = true → P.pc = .tryLock := by
  fun_cases op cfg p P
  all_goals simp [*]
  all_goals
    intro m
    split_ifs <;> simp [hworker]

theorem shortOf_step {Q : ℕ} (hQ : 0 < Q) (hcap : cfg.cap = some Q) (hn : Q < cfg.n)
    (hinv : Inv cfg s) (hshort : ShortOf cfg Q s) {e : Event} (heager : Eager cfg s e)
    (hstep : (choir cfg).step s e s') : ShortOf cfg Q s' := by
  obtain ⟨p, call⟩ := e
  obtain ⟨hp, hnext⟩ := hstep
  have hs := step_of_next hnext
  intro c hc hlead
  by_cases hpc : c = p
  · subst hpc
    have hplain : (s.proc c).pc ≠ .sendBye → (∀ pids i, (s.proc c).pc ≠ .dismiss pids i) →
        Short cfg Q c (s.proc c).pc → Short cfg Q c (s'.proc c).pc :=
      fun hbye hdismiss h => hs.then (op_short hQ hbye hdismiss h)
    rcases hinv.cases_proc hc with hw | ⟨heard, q, proc, _⟩ | led
    -- a worker that becomes the conductor takes the `LOCK`
    · have hpc := hs.then (op_becomes_conductor hw.not_conductor) hlead
      exact hplain (by simp [hpc]) (by simp [hpc]) (by simp [hpc, Short])
    · exact hplain (by simp [proc]) (by simp [proc]) (by simp [proc, Short])
    · have hnow := hshort c hc led.conductor.1
      cases led with
      | assigning _ _ proc | singing _ _ proc | turn _ _ _ _ _ _ _ proc | acked _ _ _ _ proc =>
        exact hplain (by simp [proc]) (by simp [proc]) hnow
      | dismissing i acks q proc choir byes count out =>
        rw [proc] at hnow
        exact short_dismissing hcap hn hc proc choir count hnow
          (heager ⟨order cfg, i, by rw [proc]⟩) hs
      | awaiting k acks q proc =>
        rw [proc] at hnow
        exact hnow.elim
      | finished proc =>
        rw [proc] at hnow
        exact hnow.elim
  · rw [hs.frame hpc] at hlead ⊢
    exact hshort c hc hlead

/-- More processes than the queue holds messages: some run gets stuck. -/
theorem exists_deadlock {Q : ℕ} (hQ : 2 ≤ Q) (hcap : cfg.cap = some Q) (fits : Fits cfg)
    (hn : Q < cfg.n) : ∃ s, (choir cfg).Reachable s ∧ Deadlock cfg s := by
  obtain ⟨s, hs, hlast⟩ := ((choir cfg).restrict (Eager cfg)).exists_terminal _
    (fun _ _ _ _ hstep => choir_step_lt hstep.2) (.init rfl)
  have hreach := hs.of_restrict
  have hinv := inv_reachable fits hreach
  have hshort : ShortOf cfg Q s :=
    System.invariant_of (J := (choir cfg).Reachable) (I := ShortOf cfg Q)
      (fun _ h => h.of_restrict)
      (fun s (hs : s = initState) => by
        rw [hs]
        intro c _ hlead
        simp [initState] at hlead)
      (fun _ _ _ hr hi hst =>
        shortOf_step (by omega) hcap hn (inv_reachable fits hr) hi hst.1 hst.2) hs
  have hno : ∀ p ∈ cfg.pids,
      (∀ pids i, (s.proc p).pc = .dismiss pids i →
        ∀ p' ∈ cfg.pids, p' ≠ p → next cfg s p' = none) → next cfg s p = none := by
    intro p hp heager
    cases hnext : next cfg s p with
    | none => rfl
    | some r =>
      have hG : Eager cfg s ⟨p, r.2⟩ := by
        rintro ⟨pids, i, hpc⟩
        exact heager pids i hpc
      exact absurd ⟨hG, hp, hnext⟩ (hlast ⟨p, r.2⟩ r.1)
  refine ⟨s, hreach, ?_, ?_⟩
  -- somebody has not ended: the conductor, or anybody if there is none
  · have hpos : 0 < cfg.pids.card := by
      have : cfg.n = cfg.pids.card := rfl
      omega
    obtain ⟨p, hp⟩ := Finset.card_pos.mp hpos
    cases hinv with
    | electing q muster out =>
      refine ⟨p, hp, ?_⟩
      rcases muster.fresh p hp (by simp) with hf | hf | ⟨_, hf⟩ <;> simp [hf]
    | collecting c heard q hc proc muster out => exact ⟨c, hc, by simp [proc]⟩
    | led c hc led =>
      refine ⟨c, hc, fun e he => ?_⟩
      obtain ⟨hlead, hsound⟩ := led.conductor
      have hnow := hshort c hc hlead
      rw [he, hsound.exits e he] at hnow
      exact hnow
  · intro p hp
    apply hno p hp
    intro pids i hpc p' hp' hne
    -- `p` is the conductor, so `p'` is not in a `DONE` loop
    apply hno p' hp'
    intro pids' i' hpc'
    exfalso
    have hlead : ∀ c ∈ cfg.pids, ∀ pids i, (s.proc c).pc = .dismiss pids i →
        (s.proc c).is_conductor = true := by
      intro c hc pids i hpc
      rcases hinv.cases_proc hc with hw | ⟨_, _, proc, _⟩ | led
      · have := hw.not_conducting
        simp [hpc, Pc.conducting] at this
      · simp [proc]
      · exact led.conductor.1
    exact hne (hinv.one_conductor hp hp' (hlead p hp _ _ hpc) (hlead p' hp' _ _ hpc'))

end

/-- **Deadlock freedom.** A choir whose song has at most as many distinct bytes
    as there are processes never gets stuck on a queue of `Q ≥ 2` messages if
    and only if there are at most `Q` processes. -/
theorem deadlock_free_iff (cfg : Config) (Q : ℕ) (hQ : 2 ≤ Q) (hcap : cfg.cap = some Q)
    (fits : Fits cfg) :
    (∀ s, (choir cfg).Reachable s → ¬ Deadlock cfg s) ↔ cfg.n ≤ Q := by
  constructor
  · intro hfree
    by_contra hn
    obtain ⟨s, hreach, hdead⟩ := exists_deadlock hQ hcap fits (not_le.mp hn)
    exact hfree s hreach hdead
  · intro hn s hreach
    exact (inv_reachable fits hreach).not_deadlock hQ hcap fits hn

/-- Two processes share a queue for two messages. -/
theorem deadlock_free_duet : ¬ ∃ s, (choir duet).Reachable s ∧ Deadlock duet s := by
  rintro ⟨s, hreach, hdead⟩
  have hfree := (deadlock_free_iff duet 2 le_rfl rfl (by decide)).mpr (by decide)
  exact hfree s hreach hdead

/-- Three processes, a queue for two messages, and a song of one byte. -/
def trio : Config where
  pids := {1, 2, 3}
  song := ⟨[97], by decide⟩
  cap := some 2

/-- Process 1 conducts. Process 2 has answered its `DONE`; its `BYE` and the
    `ASSIGN` of process 1 to itself fill the queue, and process 1 wants to send
    `DONE` to process 3. -/
theorem trio_deadlock : ∃ s, (choir trio).Reachable s ∧ Deadlock trio s := by
  have hrun : (System.replay (nextEvent trio) initState ([1, 1, 1] ++ [2, 2, 1] ++ [3, 3, 1] ++
      [1, 1, 1, 2, 1, 3] ++ [1, 1, 1] ++ [1, 1, 2, 2])).any (fun r =>
        (r.1.proc 1).pc == .dismiss [1, 2, 3] 2 &&
          decide (∀ p ∈ trio.pids, (next trio r.1 p).isNone = true)) = true := by
    decide +kernel
  obtain ⟨⟨s, es⟩, hs, hprop⟩ := (Option.any_eq_true _ _).mp hrun
  simp only [Bool.and_eq_true, beq_iff_eq, decide_eq_true_eq] at hprop
  obtain ⟨hpc, hstuck⟩ := hprop
  have h : (choir trio).Run initState es s :=
    System.Run.of_replay (fun _ _ _ _ => step_of_nextEvent) hs
  refine ⟨s, h.reachable (.init rfl), ⟨1, by decide, by simp [hpc]⟩, ?_⟩
  exact fun p hp => Option.isNone_iff_eq_none.mp (hstuck p hp)

/-! ### The whole choir -/

/-- Once everybody has ended, the conductor has been through its last phase. -/
theorem Inv.finished {cfg : Config} {s : State} (h : Inv cfg s) (hsome : cfg.pids.Nonempty)
    (hend : ∀ p ∈ cfg.pids, (s.proc p).pc = .exited .success) :
    s.queue = none ∧ s.out.map Prod.snd = songLine cfg.song := by
  cases h with
  | electing q muster =>
    obtain ⟨p, hp⟩ := hsome
    have hpc := hend p hp
    rcases muster.fresh p hp (by simp) with hproc | hproc | ⟨_, hproc⟩ <;>
      simp [hproc] at hpc
  | collecting c heard q hc proc =>
    have hpc := hend c hc
    simp [proc] at hpc
  | led c hc led =>
    have hpc := hend c hc
    cases led with
    | finished proc queue workers out =>
      refine ⟨queue, ?_⟩
      rw [out, map_snd_concert]
    | assigning _ _ proc | singing _ _ proc | turn _ _ _ _ _ _ _ proc | acked _ _ _ _ proc
    | dismissing _ _ _ proc | awaiting _ _ _ proc => simp [proc] at hpc

/-- **A choir that fits its queue sings to the end.** Whatever the order of the
    steps, there are at most `10 n + 5 L + 6` of them, and where no process can
    move the whole song line is written, everybody has returned 0 and the queue
    is removed. -/
theorem choir_finishes {cfg : Config} {Q : ℕ} (hsome : cfg.pids.Nonempty) (fits : Fits cfg)
    (hQ : 2 ≤ Q) (hcap : cfg.cap = some Q) (hn : cfg.n ≤ Q) {es : List Event} {s : State}
    (h : (choir cfg).Run initState es s) :
    es.length ≤ 10 * cfg.n + 5 * cfg.song.bytes.length + 6 ∧
      ((∀ e, ¬ (choir cfg).Enabled s e) →
        s.out.map Prod.snd = songLine cfg.song ∧
          (∀ p ∈ cfg.pids, (s.proc p).pc = .exited .success) ∧ s.queue = none) := by
  have hlen := choir_terminates h
  refine ⟨by omega, fun hquiet => ?_⟩
  have hinv := inv_reachable fits (h.reachable (.init rfl))
  have hstuck : ∀ p ∈ cfg.pids, next cfg s p = none := by
    intro p hp
    by_contra hnext
    obtain ⟨⟨s', call⟩, hmove⟩ := Option.ne_none_iff_exists'.mp hnext
    exact hquiet ⟨p, call⟩ ⟨s', hp, hmove⟩
  have hend : ∀ p ∈ cfg.pids, (s.proc p).pc = .exited .success := by
    intro p hp
    by_contra hlive
    refine hinv.not_deadlock hQ hcap fits hn ⟨⟨p, hp, fun e he => hlive ?_⟩, hstuck⟩
    rw [he, (hinv.sound hp).exits e he]
  obtain ⟨hqueue, hout⟩ := hinv.finished hsome hend
  exact ⟨hout, hend, hqueue⟩

theorem choir_finishes_duet : ∃ es s, (choir duet).Run initState es s ∧
    es.length ≤ 36 ∧ s.out.map Prod.snd = [97, 98, 10] ∧ s.queue = none := by
  have hrun : (System.replay (nextEvent duet) initState ([1, 1, 1, 2, 2, 1, 1, 1, 1] ++ [2] ++
      [1, 1, 1] ++ [2, 2, 2] ++ [1, 1, 1, 1] ++ [2, 2] ++ [1, 1, 1])).any (fun r =>
        decide (∀ p ∈ duet.pids, (next duet r.1 p).isNone = true)) = true := by
    decide +kernel
  obtain ⟨⟨s, es⟩, hs, hstuck⟩ := (Option.any_eq_true _ _).mp hrun
  simp only [decide_eq_true_eq] at hstuck
  have h : (choir duet).Run initState es s :=
    System.Run.of_replay (fun _ _ _ _ => step_of_nextEvent) hs
  obtain ⟨hlen, hfinish⟩ := choir_finishes (by decide) (by decide) le_rfl rfl (by decide) h
  have hquiet : ∀ e, ¬ (choir duet).Enabled s e := by
    intro e ⟨s', hp, hmove⟩
    have hnone := Option.isNone_iff_eq_none.mp (hstuck e.pid hp)
    simp [hnone] at hmove
  obtain ⟨hout, -, hqueue⟩ := hfinish hquiet
  exact ⟨es, s, h, hlen, hout, hqueue⟩

end Bogatyr
