import OsLessons.Bogatyr.Success

/-! # Room in the queue

  Who can be blocked where, and how many messages the queue then holds.
  `no_deadlock`: a queue with room for one message per process never gets a
  choir stuck.
-/

namespace Bogatyr

open Lts MsgQueue

/-- Some process has not ended and nobody can move. -/
def Deadlock (cfg : Config) (s : State) : Prop :=
  (∃ p ∈ cfg.pids, ∀ e, (s.proc p).pc ≠ .exited e) ∧ ∀ p ∈ cfg.pids, next cfg s p = none

section
variable {cfg : Config} {c p : ℕ} {s : State} {sent : ℕ → List Msg} {acks q : List Msg}

/-! ### Blocked processes -/

/-- A process that is about to send is blocked only by a full queue. -/
theorem full_of_stuck {P : Proc} {m : Msg} {k : Bool → Proc} (hproc : s.proc p = P)
    (hop : op cfg p P = .msgsnd m k) (hq : s.queue = some q) (hstuck : next cfg s p = none) :
    ¬ room cfg.cap q :=
  full_of_next_eq_none hstuck (by rw [hproc]; exact hop) hq

/-- A process that is about to receive is blocked only if there is no message. -/
theorem empty_of_stuck {P : Proc} {t : ℕ} {k : Option Msg → Proc} (hproc : s.proc p = P)
    (hop : op cfg p P = .msgrcv t false k) (hq : s.queue = some q)
    (hstuck : next cfg s p = none) : mail t q = [] :=
  box_of_next_eq_none hstuck (by rw [hproc]; exact hop) hq

/-- A process at another call is not blocked. -/
theorem not_free_of_stuck {P : Proc} {o : Op Msg Proc} (hproc : s.proc p = P)
    (hop : op cfg p P = o) (hstuck : next cfg s p = none) : ¬ o.Free := by
  rw [← hproc] at hop
  rintro hfree
  rw [← hop] at hfree
  exact next_of_free hfree hstuck

/-- A blocked worker has no mail. It waits for its next letter, or it wants to
    answer and the queue is full, or it has left. -/
theorem Choir.stuck (h : Choir cfg c sent acks s q) (hp : p ∈ cfg.pids) (hpc : p ≠ c)
    (hstuck : next cfg s p = none) :
    mail (MT_TO p) q = [] ∧
      ((sent p).length ≤ 1 ∨ (¬ room cfg.cap q ∧ (s.proc p).pc ≠ .exited .success) ∨
        ((s.proc p).pc = .exited .success ∧
          sent p = [assignMsg c p (assigned cfg p), doneMsg c p])) := by
  have hfollows := h.follows p hp hpc
  generalize hproc : s.proc p = P at hfollows ⊢
  generalize hmail : mail (MT_TO p) q = letters at hfollows ⊢
  generalize hl : sent p = l at hfollows ⊢
  cases hfollows with
  | locking =>
    -- `IPC_NOWAIT` does not block
    exact absurd rfl (not_free_of_stuck hproc op_tryLock hstuck)
  | waiting =>
    have hnil := empty_of_stuck hproc (t := MT_TO p) rfl h.queue hstuck
    rw [hmail] at hnil
    subst hnil
    exact ⟨rfl, .inl (by simp)⟩
  | ready =>
    have hnil := empty_of_stuck hproc (t := MT_TO p) rfl h.queue hstuck
    rw [hmail] at hnil
    subst hnil
    exact ⟨rfl, .inl (by simp)⟩
  | turned seq ch =>
    by_cases hown : assigned cfg p ≠ 0 ∧ ch = assigned cfg p
    · have hop : op cfg p ⟨.turned seq ch, false, assigned cfg p⟩ =
          .write ch ⟨.sendAck seq, false, assigned cfg p⟩ := if_pos hown
      exact absurd trivial (not_free_of_stuck hproc hop hstuck)
    · have hop : op cfg p ⟨.turned seq ch, false, assigned cfg p⟩ =
          .compute ⟨.sendAck seq, false, assigned cfg p⟩ := if_neg hown
      exact absurd trivial (not_free_of_stuck hproc hop hstuck)
  | sung seq ch => exact ⟨rfl, .inr (.inl ⟨full_of_stuck hproc rfl h.queue hstuck, by simp⟩)⟩
  | dismissed => exact ⟨rfl, .inr (.inl ⟨full_of_stuck hproc rfl h.queue hstuck, by simp⟩)⟩
  | left => exact ⟨rfl, .inr (.inr ⟨rfl, rfl⟩)⟩

/-! ### The number of messages -/

/-- With no worker having mail, the queue holds the letters of the conductor
    to itself and the answers. -/
theorem Choir.length_eq (h : Choir cfg c sent acks s q) (hc : c ∈ cfg.pids)
    (hmail : ∀ p ∈ cfg.pids, p ≠ c → mail (MT_TO p) q = []) :
    q.length = acks.length + (sent c).length := by
  rw [length_eq_sum_box (Bogatyr.types cfg) h.types, ← h.ack, ← h.own]
  -- every other type is that of the lock, a registration or a letter
  refine Finset.sum_eq_add MT_ACK (MT_TO c) (by simp) ?_ (by simp) ?_
  · intro t ht ⟨hack, hown⟩
    simp only [Bogatyr.types, Finset.mem_union, Finset.mem_insert, Finset.mem_singleton,
      Finset.mem_image] at ht
    rcases ht with (rfl | rfl | rfl) | ⟨p, hp, rfl⟩
    · exact congrArg List.length h.lock
    · exact congrArg List.length h.reg
    · exact absurd rfl hack
    · exact congrArg List.length (hmail p hp (by simpa [MT_TO_inj] using hown))
  · exact fun hno => absurd (MT_TO_mem_types hc) hno

/-- Before everybody has registered, the queue holds the `LOCK` and the registrations. -/
theorem Muster.length_eq {lead : Option ℕ} {locks : List Msg} {heard : List ℕ}
    (h : Muster cfg lead locks heard s q) :
    q.length = locks.length + (mail MT_REG q).length := by
  rw [length_eq_sum_box (Bogatyr.types cfg) h.types, ← h.lock]
  refine Finset.sum_eq_add MT_LOCK MT_REG (by simp) ?_ (by simp) (by simp)
  intro t ht ⟨hlock, hreg⟩
  simp only [Bogatyr.types, Finset.mem_union, Finset.mem_insert, Finset.mem_singleton,
    Finset.mem_image] at ht
  rcases ht with (rfl | rfl | rfl) | ⟨p, hp, rfl⟩
  · exact absurd rfl hlock
  · exact absurd rfl hreg
  · exact congrArg List.length h.ack
  · exact congrArg List.length (h.letters p)

theorem le_of_full {Q : ℕ} (hcap : cfg.cap = some Q) (hfull : ¬ room cfg.cap q) :
    Q ≤ q.length := by
  simpa [room, hcap] using hfull

theorem lt_of_room {Q : ℕ} (hcap : cfg.cap = some Q) (hroom : room cfg.cap q) :
    q.length < Q := by
  simpa [room, hcap] using hroom

/-! ### Registration -/

section stuck
variable {Q : ℕ} (hQ : 2 ≤ Q) (hcap : cfg.cap = some Q)
  (hstuck : ∀ p ∈ cfg.pids, next cfg s p = none)
include hQ hcap hstuck

/-- A choir with a queue for two messages is not stuck while it registers. -/
theorem Muster.not_stuck {lead : Option ℕ} {locks : List Msg} {heard : List ℕ}
    (h : Muster cfg lead locks heard s q) (hlocks : locks.length ≤ 1) (hreg : mail MT_REG q = [])
    (hp : p ∈ cfg.pids) (hlead : lead ≠ some p) : lead ≠ none ∧ p ∈ heard := by
  rcases h.fresh p hp hlead with hf | hf | ⟨hsome, hf⟩
  · have hfull := full_of_stuck hf rfl h.queue (hstuck p hp)
    have hle := le_of_full hcap hfull
    rw [h.length_eq, hreg] at hle
    simp only [List.length_nil] at hle
    omega
  · exact absurd rfl (not_free_of_stuck hf op_tryLock (hstuck p hp))
  · refine ⟨hsome, ?_⟩
    have hmem := (h.heard_mem p).mpr ⟨hp, by simp [hf]⟩
    simpa [hreg] using hmem

/-- Nobody is registered, so everybody finds room. -/
theorem Muster.electing_not_stuck (h : Muster cfg none [lockMsg] [] s q) (hp : p ∈ cfg.pids) :
    False := by
  have hreg : mail MT_REG q = [] := by
    by_contra hne
    obtain ⟨m, hm⟩ := List.exists_mem_of_ne_nil _ hne
    obtain ⟨hpid, hpc⟩ := (h.heard_mem m.pid).mp (by simpa using ⟨m, hm, rfl⟩)
    rcases h.fresh m.pid hpid (by simp) with hf | hf | ⟨hno, _⟩
    · exact hpc (by rw [hf])
    · exact absurd rfl (not_free_of_stuck hf op_tryLock (hstuck _ hpid))
    · exact hno rfl
  exact absurd rfl (h.not_stuck hQ hcap hstuck (by simp) hreg hp (by simp)).1

/-- While the conductor waits for a registration, somebody has not been heard. -/
theorem Muster.collecting_not_stuck {heard : List ℕ} (fits : Fits cfg) (hc : c ∈ cfg.pids)
    (proc : s.proc c = ⟨.collect heard, true, 0⟩) (h : Muster cfg (some c) [] heard s q) :
    False := by
  by_cases hlen : heard.length < cfg.n
  · have hreg := empty_of_stuck proc (op_collect hlen) h.queue (hstuck c hc)
    have hall : cfg.pids ⊆ heard.toFinset := by
      intro p hp
      rw [List.mem_toFinset]
      by_cases hpc : p = c
      · have hmem := (h.heard_mem p).mpr ⟨hp, by simp [hpc, proc]⟩
        simpa [hreg] using hmem
      · exact (h.not_stuck hQ hcap hstuck (by simp) hreg hp (by simpa using Ne.symm hpc)).2
    have hcard := Finset.card_le_card hall
    have hle := List.toFinset_card_le heard
    exact hlen.not_ge (hcard.trans hle)
  · exact not_free_of_stuck proc (op_collect_end fits hlen) (hstuck c hc) trivial

/-! ### Songs -/

omit hQ in
/-- A full queue holds `Q` letters of the conductor to itself and answers. -/
theorem Choir.full (h : Choir cfg c sent acks s q) (hc : c ∈ cfg.pids)
    (hfull : ¬ room cfg.cap q) : Q ≤ acks.length + (sent c).length := by
  rw [← h.length_eq hc fun p hp hpc => (h.stuck hp hpc (hstuck p hp)).1]
  exact le_of_full hcap hfull

theorem Choir.assigning_not_stuck {i : ℕ} {ch : UInt8} (hc : c ∈ cfg.pids)
    (proc : s.proc c = ⟨.assign (order cfg) i, true, ch⟩)
    (h : Choir cfg c (assigns cfg c i) [] s q) : False := by
  cases hi : (order cfg)[i]? with
  | some pid =>
    have hle := h.full hcap hstuck hc
      (full_of_stuck proc (op_assign hi) h.queue (hstuck c hc))
    have : (assigns cfg c i c).length ≤ 1 := by
      unfold assigns
      split <;> simp
    simp only [List.length_nil] at hle
    omega
  | none => exact not_free_of_stuck proc (op_assign_end hi) (hstuck c hc) trivial

/-- The conductor holds at most its own letter, so a queue for two has room. -/
theorem Choir.singing_not_stuck {seq : ℕ} (fits : Fits cfg) (hc : c ∈ cfg.pids)
    (proc : s.proc c = ⟨.sing (order cfg) seq, true, assigned cfg c⟩)
    (h : Choir cfg c (dones cfg c 0) [] s q) : False := by
  cases hseq : cfg.song.bytes[seq]? with
  | some ch =>
    obtain ⟨singer, _, hown⟩ := exists_owner fits (List.mem_of_getElem? hseq)
    by_cases hself : singer = c
    · subst hself
      exact not_free_of_stuck proc (op_sing_own fits hseq hown) (hstuck singer hc) trivial
    · have hle := h.full hcap hstuck hc
        (full_of_stuck proc (op_sing_turn hseq hown hself) h.queue (hstuck c hc))
      simp only [dones_zero, List.length_nil, List.length_singleton] at hle
      omega
  | none =>
    by_cases hnl : needs_newline cfg.song = true
    · exact not_free_of_stuck proc (op_sing_newline hseq hnl) (hstuck c hc) trivial
    · exact not_free_of_stuck proc (op_sing_end hseq hnl) (hstuck c hc) trivial

/-- Only a full queue could block the singer. -/
theorem Choir.turn_not_stuck {seq singer : ℕ} {ch : UInt8} (fits : Fits cfg) (hc : c ∈ cfg.pids)
    (own : owner cfg ch = some singer) (ne : singer ≠ c)
    (h : Choir cfg c (turns cfg c singer seq ch) [] s q) : False := by
  have hsinger := (owner_mem fits own).2
  have hsent : turns cfg c singer seq ch singer =
      [assignMsg c singer (assigned cfg singer), turnMsg c singer seq ch] := if_pos rfl
  rcases (h.stuck hsinger ne (hstuck singer hsinger)).2 with hlen | ⟨hf, _⟩ | ⟨_, hdone⟩
  · simp [hsent] at hlen
  · have hle := h.full hcap hstuck hc hf
    have hown : turns cfg c singer seq ch c = [assignMsg c c (assigned cfg c)] :=
      if_neg (Ne.symm ne)
    simp only [hown, List.length_nil, List.length_singleton] at hle
    omega
  · exact absurd hdone turns_ne_done

/-! ### The end -/

omit hQ in
/-- Behind a `DONE` that cannot be sent the queue is full of `BYE`s. -/
theorem Choir.dismissing_stuck {i : ℕ} (hc : c ∈ cfg.pids)
    (proc : s.proc c = ⟨.dismiss (order cfg) i, true, assigned cfg c⟩)
    (h : Choir cfg c (dones cfg c i) acks s q) (count : acks.length = (leavers cfg c s).card) :
    ∃ pid ∈ cfg.pids, pid ≠ c ∧ (s.proc pid).pc ≠ .exited .success ∧
      Q ≤ (leavers cfg c s).card + 1 := by
  cases hi : (order cfg)[i]? with
  | some pid =>
    by_cases hself : pid = c
    · subst hself
      exact (not_free_of_stuck proc (op_dismiss_self hi) (hstuck pid hc) trivial).elim
    · have hpid : pid ∈ cfg.pids := mem_of_getElem? hi
      have hone : dones cfg c i pid = [assignMsg c pid (assigned cfg pid)] :=
        if_neg fun h => not_mem_take hi h.1
      have hle := h.full hcap hstuck hc
        (full_of_stuck proc (op_dismiss hi hself) h.queue (hstuck c hc))
      have hown : dones cfg c i c = [assignMsg c c (assigned cfg c)] := if_neg fun h => h.2 rfl
      rw [hown, count, List.length_singleton] at hle
      exact ⟨pid, hpid, hself, ((h.follows pid hpid hself).early (by simp [hone])).2, hle⟩
  | none => exact (not_free_of_stuck proc (op_dismiss_end hi) (hstuck c hc) trivial).elim

/-- Nothing but the letter of the conductor to itself is left, so everybody has left. -/
theorem Choir.leavers_eq (hc : c ∈ cfg.pids) (h : Choir cfg c (dones cfg c cfg.n) [] s q) :
    leavers cfg c s = cfg.pids.erase c := by
  refine Finset.filter_true_of_mem fun p hp => ?_
  obtain ⟨hpc, hp⟩ := Finset.mem_erase.mp hp
  have hsent : dones cfg c cfg.n p = [assignMsg c p (assigned cfg p), doneMsg c p] :=
    if_pos ⟨(mem_take_n p).mpr hp, hpc⟩
  rcases (h.stuck hp hpc (hstuck p hp)).2 with hlen | ⟨hf, _⟩ | ⟨hleft, _⟩
  · simp [hsent] at hlen
  · have hle := h.full hcap hstuck hc hf
    have hown : dones cfg c cfg.n c = [assignMsg c c (assigned cfg c)] := if_neg fun h => h.2 rfl
    simp only [hown, List.length_nil, List.length_singleton] at hle
    omega
  · exact hleft

theorem Choir.awaiting_not_stuck {k : ℕ} (hc : c ∈ cfg.pids)
    (proc : s.proc c = ⟨.awaitBye k, true, assigned cfg c⟩)
    (h : Choir cfg c (dones cfg c cfg.n) acks s q)
    (count : k + (leavers cfg c s).card = cfg.n - 1 + acks.length) : False := by
  by_cases hk : 0 < k
  · have hack := empty_of_stuck proc (op_awaitBye hk) h.queue (hstuck c hc)
    obtain rfl : acks = [] := h.ack.symm.trans hack
    have hcard : (cfg.pids.erase c).card = cfg.n - 1 := Finset.card_erase_of_mem hc
    rw [h.leavers_eq hQ hcap hstuck hc, hcard, List.length_nil] at count
    omega
  · exact not_free_of_stuck proc (op_awaitBye_end hk) (hstuck c hc) trivial

end stuck

/-- Where a choir with a queue for two messages can get stuck: when the
    conductor wants to send a `DONE` and the queue is full of `BYE`s. -/
theorem Inv.stuck {Q : ℕ} (hQ : 2 ≤ Q) (hcap : cfg.cap = some Q) (fits : Fits cfg)
    (h : Inv cfg s) (hdead : Deadlock cfg s) :
    ∃ c ∈ cfg.pids, ∃ pid ∈ cfg.pids, pid ≠ c ∧ (s.proc pid).pc ≠ .exited .success ∧
      Q ≤ (leavers cfg c s).card + 1 := by
  obtain ⟨⟨p₀, hp₀, hlive⟩, hstuck⟩ := hdead
  cases h with
  | electing q muster out => exact (muster.electing_not_stuck hQ hcap hstuck hp₀).elim
  | collecting c heard q hc proc muster out =>
    exact (muster.collecting_not_stuck hQ hcap hstuck fits hc proc).elim
  | led c hc led =>
    cases led with
    | assigning i q proc choir out =>
      exact (choir.assigning_not_stuck hQ hcap hstuck hc proc).elim
    | singing seq q proc le choir out =>
      exact (choir.singing_not_stuck hQ hcap hstuck fits hc proc).elim
    | turn seq singer ch q song own ne proc choir out =>
      exact (choir.turn_not_stuck hQ hcap hstuck fits hc own ne).elim
    | acked seq singer q lt proc choir out =>
      -- the `ACK` can be taken
      have hack := empty_of_stuck proc op_awaitAck choir.queue (hstuck c hc)
      rw [choir.ack] at hack
      cases hack
    | dismissing i acks q proc choir byes count out =>
      exact ⟨c, hc, choir.dismissing_stuck hcap hstuck hc proc count⟩
    | awaiting k acks q proc choir byes count out =>
      exact (choir.awaiting_not_stuck hQ hcap hstuck hc proc count).elim
    | finished proc queue workers out =>
      exfalso
      by_cases hpc : p₀ = c
      · exact hlive .success (by rw [hpc, proc])
      · exact hlive .success (by rw [workers p₀ hp₀ hpc])

/-- With room for one message per process nobody gets stuck. -/
theorem Inv.not_deadlock {Q : ℕ} (hQ : 2 ≤ Q) (hcap : cfg.cap = some Q) (fits : Fits cfg)
    (hn : cfg.n ≤ Q) (h : Inv cfg s) : ¬ Deadlock cfg s := by
  intro hdead
  obtain ⟨c, hc, pid, hpid, hne, hlive, hle⟩ := h.stuck hQ hcap fits hdead
  -- neither the conductor nor process `pid` has sent a `BYE`
  have hsub : leavers cfg c s ⊆ (cfg.pids.erase c).erase pid := by
    intro p hp
    obtain ⟨hp, hleft⟩ := Finset.mem_filter.mp hp
    refine Finset.mem_erase.mpr ⟨?_, hp⟩
    rintro rfl
    exact hlive hleft
  have hcard := Finset.card_le_card hsub
  rw [Finset.card_erase_of_mem (Finset.mem_erase.mpr ⟨hne, hpid⟩),
    Finset.card_erase_of_mem hc] at hcard
  have htwo : 2 ≤ cfg.n := by
    have : ({c, pid} : Finset ℕ) ⊆ cfg.pids := by
      intro p hp
      rcases Finset.mem_insert.mp hp with rfl | hp
      · exact hc
      · rwa [Finset.mem_singleton.mp hp]
    have := Finset.card_le_card this
    rwa [Finset.card_pair (Ne.symm hne)] at this
  have hcfg : cfg.pids.card = cfg.n := rfl
  omega

end

end Bogatyr
