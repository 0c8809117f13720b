import OsLessons.Bogatyr.Phases

/-! # A choir with enough processes sings its song

  `choir_success` collects what `Inv` says about a whole run: one conductor,
  the output a prefix of the song at every moment, every byte written by its
  owner, no error exit, and at the end the whole song and a `BYE` from every
  worker.
-/

namespace Bogatyr

open Lts MsgQueue

/-- The song, with a newline if it does not end in one. -/
def songLine (song : CStr) : List UInt8 :=
  song.bytes ++ if needs_newline song then [10] else []

section
variable {cfg : Config} {c p : ℕ} {s s' : State} {call : Call Msg}

/-! ### What the phases say about the processes -/

/-- What every process satisfies: it has no byte or the one it is assigned,
    none before its `ASSIGN`, and it does not end badly. -/
structure Sound (cfg : Config) (p : ℕ) (P : Proc) : Prop where
  my_ch : P.my_ch = 0 ∨ P.my_ch = assigned cfg p
  unassigned : P.pc = .awaitAssign → P.my_ch = 0
  exits : ∀ e, P.pc = .exited e → e = .success

/-- What a worker satisfies. -/
structure Worker (cfg : Config) (p : ℕ) (P : Proc) : Prop extends Sound cfg p P where
  not_conductor : P.is_conductor = false
  not_conducting : P.pc.conducting = false

theorem Follows.worker {l mail : List Msg} {P : Proc} (h : Follows cfg c p l P mail) :
    Worker cfg p P := by
  cases h <;> exact ⟨⟨by simp, by simp, by simp⟩, rfl, rfl⟩

theorem Muster.worker {lead : Option ℕ} {locks : List Msg} {heard : List ℕ} {q : List Msg}
    (h : Muster cfg lead locks heard s q) (hp : p ∈ cfg.pids) (hlead : lead ≠ some p) :
    Worker cfg p (s.proc p) := by
  rcases h.fresh p hp hlead with hf | hf | ⟨_, hf⟩ <;> rw [hf] <;>
    exact ⟨⟨by simp, by simp, by simp⟩, rfl, rfl⟩

theorem Led.worker (h : Led cfg c s) (hp : p ∈ cfg.pids) (hpc : p ≠ c) :
    Worker cfg p (s.proc p) := by
  cases h with
  | assigning _ q _ choir | singing _ q _ _ choir | turn _ _ _ q _ _ _ _ choir
  | acked _ _ q _ _ choir | dismissing _ _ q _ choir | awaiting _ _ q _ choir =>
    exact (choir.follows p hp hpc).worker
  | finished _ _ workers =>
    rw [workers p hp hpc]
    exact ⟨⟨by simp, by simp, by simp⟩, rfl, rfl⟩

/-- The conductor of a `Led` phase. -/
theorem Led.conductor (h : Led cfg c s) :
    (s.proc c).is_conductor = true ∧ Sound cfg c (s.proc c) := by
  cases h with
  | assigning i q proc =>
    rw [proc]
    refine ⟨rfl, ?_, by simp, by simp⟩
    by_cases hmem : c ∈ (order cfg).take i <;> simp [hmem]
  | singing _ _ proc | turn _ _ _ _ _ _ _ proc | acked _ _ _ _ proc | dismissing _ _ _ proc
  | awaiting _ _ _ proc | finished proc =>
    rw [proc]
    exact ⟨rfl, by simp, by simp, by simp⟩

/-- A process is the conductor of the phase, or a worker. -/
theorem Inv.cases_proc (h : Inv cfg s) (hp : p ∈ cfg.pids) :
    Worker cfg p (s.proc p) ∨
    (∃ heard q, s.proc p = ⟨.collect heard, true, 0⟩ ∧ Muster cfg (some p) [] heard s q) ∨
    Led cfg p s := by
  cases h with
  | electing q muster => exact .inl (muster.worker hp (by simp))
  | collecting c heard q hc proc muster =>
    by_cases hpc : p = c
    · subst hpc
      exact .inr (.inl ⟨heard, q, proc, muster⟩)
    · exact .inl (muster.worker hp (by simpa using Ne.symm hpc))
  | led c hc led =>
    by_cases hpc : p = c
    · subst hpc
      exact .inr (.inr led)
    · exact .inl (led.worker hp hpc)

theorem Inv.sound (h : Inv cfg s) (hp : p ∈ cfg.pids) : Sound cfg p (s.proc p) := by
  rcases h.cases_proc hp with hw | ⟨heard, q, proc, _⟩ | led
  · exact hw.toSound
  · rw [proc]
    exact ⟨by simp, by simp, by simp⟩
  · exact led.conductor.2

/-- There is at most one conductor. -/
theorem Inv.one_conductor (h : Inv cfg s) {p' : ℕ} (hp : p ∈ cfg.pids) (hp' : p' ∈ cfg.pids)
    (hlead : (s.proc p).is_conductor = true) (hlead' : (s.proc p').is_conductor = true) :
    p' = p := by
  by_contra hne
  have hworker : Worker cfg p' (s.proc p') := by
    rcases h.cases_proc hp with hw | ⟨_, _, _, muster⟩ | led
    · have := hw.not_conductor
      simp [hlead] at this
    · exact muster.worker hp' (by simpa using Ne.symm hne)
    · exact led.worker hp' hne
  have := hworker.not_conductor
  simp [hlead'] at this

/-- The queue is removed only when everybody has ended. -/
theorem Inv.removed (h : Inv cfg s) (hq : s.queue = none) (hp : p ∈ cfg.pids) :
    (s.proc p).pc = .exited .success := by
  cases h with
  -- only the last phase has no queue
  | electing q muster =>
    have := muster.queue
    simp [hq] at this
  | collecting c heard q hc proc muster =>
    have := muster.queue
    simp [hq] at this
  | led c hc led =>
    cases led with
    | assigning _ q _ choir | singing _ q _ _ choir | turn _ _ _ q _ _ _ _ choir
    | acked _ _ q _ _ choir | dismissing _ _ q _ choir | awaiting _ _ q _ choir =>
      have := choir.queue
      simp [hq] at this
    | finished proc queue workers =>
      by_cases hpc : p = c
      · rw [hpc, proc]
      · rw [workers p hp hpc]

/-! ### The output -/

theorem map_snd_chorus (k : ℕ) : (chorus cfg k).map Prod.snd = cfg.song.bytes.take k := by
  simp [chorus, Function.comp_def]

theorem map_snd_concert : (concert cfg c).map Prod.snd = songLine cfg.song := by
  rw [concert, songLine, List.map_append, map_snd_chorus, List.take_length]
  split <;> rfl

/-- The output so far is a part of the song with its owners, or all of it. -/
theorem Inv.out_eq (h : Inv cfg s) :
    (∃ k ≤ cfg.song.bytes.length, s.out = chorus cfg k) ∨ ∃ c ∈ cfg.pids, s.out = concert cfg c := by
  cases h with
  | electing q muster out => exact .inl ⟨0, Nat.zero_le _, out⟩
  | collecting c heard q hc proc muster out => exact .inl ⟨0, Nat.zero_le _, out⟩
  | led c hc led =>
    cases led with
    | assigning i q proc choir out => exact .inl ⟨0, Nat.zero_le _, out⟩
    | singing seq q proc le choir out => exact .inl ⟨seq, le, out⟩
    | turn seq singer ch q song own ne proc choir out =>
      have hlt : seq < cfg.song.bytes.length := (List.getElem?_eq_some_iff.mp song).1
      refine .inl ⟨_, ?_, out⟩
      split <;> omega
    | acked seq singer q lt proc choir out => exact .inl ⟨seq + 1, lt, out⟩
    | dismissing i acks q proc choir byes count out => exact .inr ⟨c, hc, out⟩
    | awaiting k acks q proc choir byes count out => exact .inr ⟨c, hc, out⟩
    | finished proc queue workers out => exact .inr ⟨c, hc, out⟩

theorem Inv.out_prefix (h : Inv cfg s) : s.out.map Prod.snd <+: songLine cfg.song := by
  rcases h.out_eq with ⟨k, _, hout⟩ | ⟨c, _, hout⟩
  · rw [hout, map_snd_chorus]
    exact (List.take_prefix _ _).trans (List.prefix_append _ _)
  · rw [hout, map_snd_concert]

/-- Who wrote the byte at a position of the song owns it. -/
theorem Inv.out_owner (fits : Fits cfg) (h : Inv cfg s) {j : ℕ} {ch : UInt8}
    (hj : j < cfg.song.bytes.length) (hout : s.out[j]? = some (p, ch)) :
    owner cfg ch = some p := by
  have hchorus : ∀ k, (chorus cfg k)[j]? = some (p, ch) → owner cfg ch = some p := by
    intro k hk
    simp only [chorus, List.getElem?_map, Option.map_eq_some_iff, Prod.mk.injEq] at hk
    obtain ⟨ch', htake, hown, rfl⟩ := hk
    obtain ⟨singer, _, hsinger⟩ := exists_owner fits
      (List.mem_of_mem_take (List.mem_of_getElem? htake))
    rw [hsinger] at hown ⊢
    simpa using hown
  rcases h.out_eq with ⟨k, _, heq⟩ | ⟨c, _, heq⟩
  · rw [heq] at hout
    exact hchorus k hout
  · rw [heq, concert, List.getElem?_append_left (by simpa [chorus] using hj)] at hout
    exact hchorus _ hout

/-! ### Who has sung knows its byte -/

/-- `my_ch` is set in the `ASSIGN` loop and when the `ASSIGN` arrives. -/
theorem op_my_ch {P : Proc} (hassign : ∀ pids i, P.pc ≠ .assign pids i)
    (hawait : P.pc ≠ .awaitAssign) :
    (op cfg p P).Then fun P' => P'.my_ch = P.my_ch := by
  fun_cases op cfg p P
  all_goals simp
  · intro m
    split <;> rfl
  · next hpc _ _ _ => exact absurd hpc (hassign _ _)
  · next hpc => exact absurd hpc hawait

/-- A process writes with a byte of its own, or the newline after the song. -/
theorem op_write {P k : Proc} {ch : UInt8} (h : op cfg p P = .write ch k) :
    P.my_ch ≠ 0 ∨ ∃ pids seq, P.pc = .sing pids seq ∧ cfg.song.bytes.length ≤ seq := by
  revert h
  fun_cases op cfg p P
  all_goals simp [Proc.xmsgsnd, Proc.xmsgrcv]
  · next hmine _ => exact fun _ _ => .inl hmine
  · next pids seq hpc hend _ =>
    exact fun _ _ => .inr ⟨pids, seq, hpc, List.getElem?_eq_none_iff.mp hend⟩
  · next hmine => exact fun _ _ => .inl hmine.1

/-- Whoever wrote a byte of the song has its byte. -/
def Sung (cfg : Config) (s : State) : Prop :=
  ∀ e ∈ s.out.take cfg.song.bytes.length, (s.proc e.1).my_ch ≠ 0

/-- A process that has its byte keeps it. -/
theorem Inv.keeps_byte (h : Inv cfg s) (hp : p ∈ cfg.pids) (hs : Moves cfg s p s' call)
    (hbyte : (s.proc p).my_ch ≠ 0) : (s'.proc p).my_ch ≠ 0 := by
  by_cases hassign : ∃ pids i, (s.proc p).pc = .assign pids i
  -- the conductor has passed its own `ASSIGN`
  · obtain ⟨pids, i, hpc⟩ := hassign
    rcases h.cases_proc hp with hw | ⟨_, _, proc, _⟩ | led
    · have := hw.not_conducting
      simp [hpc, Pc.conducting] at this
    · simp [proc] at hpc
    · cases led with
      | assigning i' q proc choir out =>
        have hmem : p ∈ (order cfg).take i' := by
          by_contra hno
          simp [proc, hno] at hbyte
        rw [proc, if_pos hmem] at hbyte
        refine hs.then (Q := fun P' => P'.my_ch ≠ 0) ?_
        rw [proc, if_pos hmem]
        cases hi : (order cfg)[i']? with
        | none =>
          rw [op_assign_end hi]
          exact hbyte
        | some pid =>
          have hne : pid ≠ p := by
            rintro rfl
            exact not_mem_take hi hmem
          rw [op_assign hi]
          simpa [hne] using hbyte
      | singing _ _ proc | turn _ _ _ _ _ _ _ proc | acked _ _ _ _ proc | dismissing _ _ _ proc
      | awaiting _ _ _ proc | finished proc => simp [proc] at hpc
  · simp only [not_exists] at hassign
    have hawait : (s.proc p).pc ≠ .awaitAssign := fun hpc =>
      hbyte ((h.sound hp).unassigned hpc)
    have hsame : (s'.proc p).my_ch = (s.proc p).my_ch :=
      hs.then (Q := fun P' => P'.my_ch = (s.proc p).my_ch) (op_my_ch hassign hawait)
    rw [hsame]
    exact hbyte

/-- Whoever writes before the song is over has its byte. -/
theorem Inv.writer_byte (h : Inv cfg s) (hp : p ∈ cfg.pids) {ch : UInt8} {k : Proc}
    (hop : op cfg p (s.proc p) = .write ch k) (hlt : s.out.length < cfg.song.bytes.length) :
    (s.proc p).my_ch ≠ 0 := by
  rcases op_write hop with hmine | ⟨pids, seq, hpc, hle⟩
  · exact hmine
  · rcases h.cases_proc hp with hw | ⟨_, _, proc, _⟩ | led
    · have := hw.not_conducting
      simp [hpc, Pc.conducting] at this
    · simp [proc] at hpc
    · cases led with
      | singing seq' q proc le choir out =>
        rw [proc] at hpc
        simp only [Pc.sing.injEq] at hpc
        rw [out, chorus, List.length_map, List.length_take] at hlt
        omega
      | assigning _ _ proc | turn _ _ _ _ _ _ _ proc | acked _ _ _ _ proc
      | dismissing _ _ _ proc | awaiting _ _ _ proc | finished proc => simp [proc] at hpc

theorem sung_step (h : Inv cfg s) (hsung : Sung cfg s) (hp : p ∈ cfg.pids)
    (hs : Moves cfg s p s' call) : Sung cfg s' := by
  have hkeep : ∀ e : ℕ × UInt8, (s.proc e.1).my_ch ≠ 0 → (s'.proc e.1).my_ch ≠ 0 := by
    intro e he
    by_cases heq : e.1 = p
    · rw [heq] at he ⊢
      exact h.keeps_byte hp hs he
    · rw [hs.frame heq]
      exact he
  have hout : s'.out = s.out ∨
      ∃ ch, s'.out = s.out ++ [(p, ch)] ∧ ∃ k, op cfg p (s.proc p) = .write ch k := by
    cases hs with
    | wrote hop => exact .inr ⟨_, rfl, _, hop⟩
    | _ => exact .inl rfl
  intro e he
  rcases hout with hout | ⟨ch, hout, k, hop⟩
  -- the output is unchanged, or the step wrote a byte
  · rw [hout] at he
    exact hkeep e (hsung e he)
  · rw [hout, List.take_append] at he
    rcases List.mem_append.mp he with he | he
    · exact hkeep e (hsung e he)
    · have hlt : s.out.length < cfg.song.bytes.length := by
        by_contra hge
        rw [Nat.sub_eq_zero_of_le (not_lt.mp hge)] at he
        simp at he
      obtain rfl : e = (p, ch) := by simpa using List.mem_of_mem_take he
      exact hkeep _ (h.writer_byte hp hop hlt)

theorem sung_reachable (fits : Fits cfg) (h : (choir cfg).Reachable s) : Sung cfg s :=
  (choir cfg).invariant_of (J := (choir cfg).Reachable) (I := Sung cfg) (fun _ hr => hr)
    (fun s (hs : s = initState) => by rw [hs]; simp [Sung, initState])
    (fun _ _ _ hr hi hs => sung_step (inv_reachable fits hr) hi hs.1 (step_of_next hs.2)) h

/-! ### Farewells -/

/-- A process ends well by sending its `BYE`, or as the conductor. -/
theorem op_success {P : Proc} : (op cfg p P).Then fun P' => P'.pc = .exited .success →
    P.pc = .sendBye ∨ P.pc.conducting = true := by
  fun_cases op cfg p P
  all_goals simp [*, Pc.conducting]
  all_goals
    intro m
    split <;> simp

/-- A conductor stays one. -/
theorem op_is_conductor {P : Proc} (hlead : P.is_conductor = true) :
    (op cfg p P).Then fun P' => P'.is_conductor = true := by
  fun_cases op cfg p P
  all_goals simp [hlead]
  all_goals
    intro m
    split <;> simp [hlead]

theorem Inv.bye_sent (h : Inv cfg s) (hp : p ∈ cfg.pids) (hs : Moves cfg s p s' call)
    (hafter : (s'.proc p).pc = .exited .success) (hworker : (s'.proc p).is_conductor = false) :
    call = .sent (byeMsg p) := by
  have hlead : (s.proc p).is_conductor = false := by
    by_contra hlead
    have := hs.then (op_is_conductor (by simpa using hlead))
    simp [hworker] at this
  have hnot : (s.proc p).pc.conducting = false := by
    rcases h.cases_proc hp with hw | ⟨_, _, proc, _⟩ | led
    · exact hw.not_conducting
    · simp [proc] at hlead
    · simp [led.conductor.1] at hlead
  have hbye : (s.proc p).pc = .sendBye := by
    rcases hs.then op_success hafter with hbye | hcond
    · exact hbye
    · simp [hnot] at hcond
  have hop : op cfg p (s.proc p) = (s.proc p).xmsgsnd (byeMsg p) (.exited .success) := by
    unfold op
    rw [hbye]
  cases hq : s.queue with
  | none =>
    have := h.removed hq hp
    simp [hbye] at this
  | some q => exact (hs.of_msgsnd hop hq).2.1

/-- Along a run, a conductor stays one. -/
theorem conductor_stays {es : List Event} (h : (choir cfg).Run s es s')
    (hlead : (s.proc p).is_conductor = true) : (s'.proc p).is_conductor = true := by
  induction h with
  | nil => exact hlead
  | @cons s s₁ s₂ e es hstep _ ih =>
    apply ih
    by_cases hp : p = e.pid
    · subst hp
      exact (step_of_next hstep.2).then (op_is_conductor hlead)
    · rw [(step_of_next hstep.2).frame hp]
      exact hlead

/-- A worker that has ended has sent its `BYE`. -/
theorem bye_in_run (fits : Fits cfg) {es : List Event} (h : (choir cfg).Run s es s')
    (hreach : (choir cfg).Reachable s) (hp : p ∈ cfg.pids)
    (hbefore : (s.proc p).pc ≠ .exited .success) (hafter : (s'.proc p).pc = .exited .success)
    (hworker : (s'.proc p).is_conductor = false) : ⟨p, .sent (byeMsg p)⟩ ∈ es := by
  induction h with
  | nil => exact absurd hafter hbefore
  | @cons s s₁ s₂ e es hstep hrest ih =>
    by_cases hmid : (s₁.proc p).pc = .exited .success
    -- it ends in this step
    · have hpe : p = e.pid := by
        by_contra hne
        rw [(step_of_next hstep.2).frame hne] at hmid
        exact hbefore hmid
      subst hpe
      have hmidworker : (s₁.proc e.pid).is_conductor = false := by
        by_contra hlead
        have := conductor_stays hrest (by simpa using hlead)
        simp [hworker] at this
      have hcall := (inv_reachable fits hreach).bye_sent hp (step_of_next hstep.2) hmid hmidworker
      rw [← hcall]
      exact List.mem_cons_self
    · exact List.mem_cons_of_mem _ (ih (hreach.step hstep) hmid hafter hworker)

/-! ### The whole run -/

/-- Process `p` is the conductor at some moment of the run `es` to `s`. -/
def Conducted (cfg : Config) (es : List Event) (s : State) (p : ℕ) : Prop :=
  ∃ es₁ es₂ s₁, es = es₁ ++ es₂ ∧ (choir cfg).Run initState es₁ s₁ ∧
    (choir cfg).Run s₁ es₂ s ∧ (s₁.proc p).is_conductor = true

/-- **The choir sings its song.** In every run of a choir with at least as many
    processes as the song has distinct bytes, over a queue of any capacity: at
    most one process is ever conductor; the output is a prefix of the song line;
    a byte of the song is written by the one process that has it as `my_ch`;
    nobody ends in an error, and the queue is removed only after everybody has
    ended; when the conductor has returned 0 the output is the whole song line
    and every worker has sent its `BYE`. -/
theorem choir_success (cfg : Config) (fits : Fits cfg) {es : List Event} {s : State}
    (h : (choir cfg).Run initState es s) :
    (∀ p ∈ cfg.pids, ∀ p' ∈ cfg.pids, Conducted cfg es s p → Conducted cfg es s p' → p' = p) ∧
    s.out.map Prod.snd <+: songLine cfg.song ∧
    (∀ (j p : ℕ) (ch : UInt8), j < cfg.song.bytes.length → s.out[j]? = some (p, ch) →
      p ∈ cfg.pids ∧ (s.proc p).my_ch = ch ∧
        ∀ p' ∈ cfg.pids, (s.proc p').my_ch = ch → p' = p) ∧
    (∀ p ∈ cfg.pids, ∀ e, (s.proc p).pc = .exited e → e = .success) ∧
    (s.queue = none → ∀ p ∈ cfg.pids, (s.proc p).pc = .exited .success) ∧
    (∀ c ∈ cfg.pids, (s.proc c).is_conductor = true → (s.proc c).pc = .exited .success →
      s.out.map Prod.snd = songLine cfg.song ∧
        ∀ w ∈ cfg.pids, w ≠ c → ⟨w, .sent (byeMsg w)⟩ ∈ es) := by
  have hreach : (choir cfg).Reachable s := h.reachable (.init rfl)
  have hinv := inv_reachable fits hreach
  refine ⟨?_, hinv.out_prefix, ?_, fun p hp => (hinv.sound hp).exits, fun hq p hp =>
    hinv.removed hq hp, ?_⟩
  · intro p hp p' hp' ⟨_, _, _, _, _, hrun, hlead⟩ ⟨_, _, _, _, _, hrun', hlead'⟩
    exact hinv.one_conductor hp hp' (conductor_stays hrun hlead) (conductor_stays hrun' hlead')
  · intro j p ch hj hout
    have hown := hinv.out_owner fits hj hout
    obtain ⟨hch, hp⟩ := owner_mem fits hown
    have hbyte : (s.proc p).my_ch ≠ 0 := by
      refine sung_reachable fits hreach (p, ch) (List.mem_of_getElem? (i := j) ?_)
      rw [List.getElem?_take_of_lt hj]
      exact hout
    have hmine : (s.proc p).my_ch = assigned cfg p := (hinv.sound hp).my_ch.resolve_left hbyte
    refine ⟨hp, hmine.trans (assigned_of_owner fits hown), ?_⟩
    intro p' hp' hmy
    have hassigned : assigned cfg p' = ch := by
      rcases (hinv.sound hp').my_ch with h0 | h'
      · exact absurd (hmy.symm.trans h0) (ne_zero_of_mem hch)
      · rw [← h', hmy]
    have hown' := (assigned_eq_iff fits hch p').mp hassigned
    rw [hown] at hown'
    exact (Option.some.inj hown').symm
  · intro c hc hlead hend
    rcases hinv.cases_proc hc with hw | ⟨_, _, proc, _⟩ | led
    · have := hw.not_conductor
      simp [hlead] at this
    · simp [proc] at hend
    · cases led with
      | finished proc queue workers out =>
        refine ⟨by rw [out, map_snd_concert], ?_⟩
        intro w hw hwc
        refine bye_in_run fits h (.init rfl) hw (by simp [initState]) ?_ ?_
        · rw [workers w hw hwc]
        · rw [workers w hw hwc]
      | assigning _ _ proc | singing _ _ proc | turn _ _ _ _ _ _ _ proc | acked _ _ _ _ proc
      | dismissing _ _ _ proc | awaiting _ _ _ proc => simp [proc] at hend

end

/-- Processes 1 and 2, and the song `ab`. -/
def duet : Config where
  pids := {1, 2}
  song := ⟨[97, 98], by decide⟩
  cap := some 2

/-- Process 1 becomes the conductor and sings `a`, process 2 sings `b`. -/
theorem choir_success_duet : ∃ es s, (choir duet).Run initState es s ∧
    (s.proc 1).is_conductor = true ∧ (s.proc 1).pc = .exited .success ∧
    s.out = [(1, 97), (2, 98), (1, 10)] ∧ ⟨2, .sent (byeMsg 2)⟩ ∈ es := by
  have hrun : (System.replay (nextEvent duet) initState ([1, 1, 1, 2, 2, 1, 1, 1, 1] ++ [2] ++
      [1, 1, 1] ++ [2, 2, 2] ++ [1, 1, 1, 1] ++ [2, 2] ++ [1, 1, 1])).any (fun r =>
        (r.1.proc 1).is_conductor && (r.1.proc 1).pc == .exited .success &&
          r.1.out == [(1, 97), (2, 98), (1, 10)]) = true := by
    decide +kernel
  obtain ⟨⟨s, es⟩, hs, hprop⟩ := (Option.any_eq_true _ _).mp hrun
  simp only [Bool.and_eq_true, beq_iff_eq] at hprop
  obtain ⟨⟨hlead, hend⟩, hout⟩ := hprop
  have h : (choir duet).Run initState es s :=
    System.Run.of_replay (fun _ _ _ _ => step_of_nextEvent) hs
  obtain ⟨_, _, _, _, _, hover⟩ := choir_success duet (by decide) h
  obtain ⟨_, hbyes⟩ := hover 1 (by decide) hlead hend
  exact ⟨es, s, h, hlead, hend, hout, hbyes 2 (by decide) (by decide)⟩

end Bogatyr
