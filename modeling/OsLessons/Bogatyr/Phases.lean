import OsLessons.Bogatyr.Letters

/-! # From phase to phase

  `inv_step`: every step of a choir with enough processes for its song stays
  within the phases of `Inv`. The step of a worker is one of `WorkerStep`; the
  step of the conductor is read off its program point.
-/

namespace Bogatyr

open Lts MsgQueue

/-! ### Going through the sorted pids -/

section order
variable {cfg : Config} {i pid : ℕ}

theorem mem_take_succ (h : (order cfg)[i]? = some pid) (p : ℕ) :
    p ∈ (order cfg).take (i + 1) ↔ p ∈ (order cfg).take i ∨ p = pid := by
  rw [List.take_add_one, h]
  simp

theorem not_mem_take (h : (order cfg)[i]? = some pid) : pid ∉ (order cfg).take i := by
  have hnodup : ((order cfg).take (i + 1)).Nodup := nodup_order.sublist (List.take_sublist _ _)
  rw [List.take_add_one, h] at hnodup
  intro hmem
  exact (List.disjoint_of_nodup_append hnodup) hmem (by simp)

theorem mem_of_getElem? (h : (order cfg)[i]? = some pid) : pid ∈ cfg.pids :=
  mem_order.mp (List.mem_of_getElem? h)

theorem mem_take_of_none (h : (order cfg)[i]? = none) (p : ℕ) :
    p ∈ (order cfg).take i ↔ p ∈ cfg.pids := by
  rw [List.take_of_length_le (List.getElem?_eq_none_iff.mp h), mem_order]

theorem mem_take_n (p : ℕ) : p ∈ (order cfg).take cfg.n ↔ p ∈ cfg.pids := by
  rw [List.take_of_length_le (by simp), mem_order]

end order

/-! ### Going through the song -/

section song
variable {cfg : Config} {c seq singer : ℕ} {ch : UInt8}

theorem chorus_succ (h : cfg.song.bytes[seq]? = some ch) (hown : owner cfg ch = some singer) :
    chorus cfg (seq + 1) = chorus cfg seq ++ [(singer, ch)] := by
  unfold chorus
  rw [List.take_add_one, h]
  simp [hown]

theorem chorus_end (h : cfg.song.bytes[seq]? = none) :
    chorus cfg seq = chorus cfg cfg.song.bytes.length := by
  unfold chorus
  rw [List.take_of_length_le (List.getElem?_eq_none_iff.mp h), List.take_length]

theorem dones_zero (p : ℕ) : dones cfg c 0 p = [assignMsg c p (assigned cfg p)] := by
  simp [dones]

theorem turns_eq_turn {p seq' : ℕ} {ch' : UInt8}
    (h : turns cfg c singer seq ch p =
      [assignMsg c p (assigned cfg p), turnMsg c p seq' ch']) :
    p = singer ∧ seq' = seq ∧ ch' = ch := by
  unfold turns at h
  split at h
  · next hp => simp_all [turnMsg]
  · simp at h

theorem turns_ne_done {p : ℕ} :
    turns cfg c singer seq ch p ≠ [assignMsg c p (assigned cfg p), doneMsg c p] := by
  unfold turns
  split <;> simp [turnMsg, doneMsg]

theorem dones_ne_turn {i p seq' : ℕ} {ch' : UInt8} :
    dones cfg c i p ≠ [assignMsg c p (assigned cfg p), turnMsg c p seq' ch'] := by
  unfold dones
  split <;> simp [turnMsg, doneMsg]

theorem assigns_ne_two {i p : ℕ} {m m' : Msg} : assigns cfg c i p ≠ [m, m'] := by
  unfold assigns
  split <;> simp

end song

/-! ### Leavers -/

section leavers
variable {cfg : Config} {c : ℕ} {s s' : State}

theorem leavers_congr (h : ∀ p ∈ cfg.pids, p ≠ c →
    ((s'.proc p).pc = .exited .success ↔ (s.proc p).pc = .exited .success)) :
    leavers cfg c s' = leavers cfg c s := by
  unfold leavers
  refine Finset.filter_congr fun p hp => ?_
  exact h p (Finset.mem_of_mem_erase hp) (Finset.ne_of_mem_erase hp)

theorem leavers_insert {p : ℕ} (hp : p ∈ cfg.pids) (hpc : p ≠ c)
    (hbefore : (s.proc p).pc ≠ .exited .success) (hafter : (s'.proc p).pc = .exited .success)
    (hframe : ∀ p' ≠ p, s'.proc p' = s.proc p') :
    (leavers cfg c s').card = (leavers cfg c s).card + 1 := by
  have hset : leavers cfg c s' = insert p (leavers cfg c s) := by
    ext p'
    simp only [leavers, Finset.mem_filter, Finset.mem_erase, Finset.mem_insert]
    by_cases heq : p' = p
    · subst heq
      simp [hp, hpc, hafter]
    · simp [hframe p' heq, heq]
  rw [hset, Finset.card_insert_of_notMem]
  simp [leavers, hbefore]

end leavers

/-! ### Steps of a worker -/

section steps
variable {cfg : Config} {c p : ℕ} {s s' : State} {call : Call Msg}

/-- While the conductor waits for an `ACK`, the singer writes the byte and answers. -/
theorem turn_worker_step (fits : Fits cfg) (hc : c ∈ cfg.pids) (hp : p ∈ cfg.pids) (hpc : p ≠ c)
    {seq singer : ℕ} {ch : UInt8} {q : List Msg} (song : cfg.song.bytes[seq]? = some ch)
    (own : owner cfg ch = some singer) (ne : singer ≠ c)
    (proc : s.proc c = ⟨.awaitAck (order cfg) seq, true, assigned cfg c⟩)
    (choir : Choir cfg c (turns cfg c singer seq ch) [] s q)
    (out : s.out = chorus cfg (if (s.proc singer).pc = .sendAck seq then seq + 1 else seq))
    (hs : Moves cfg s p s' call) : Led cfg c s' := by
  have hframe : ∀ p' ≠ p, s'.proc p' = s.proc p' := fun p' hp' => hs.frame hp'
  have hlead := hframe c hpc.symm
  rcases choir.worker_step hp hpc hs with
    ⟨q', choir', out', before, after, _⟩ | ⟨seq', ch', q', letters, choir', before, after, out'⟩ |
    ⟨seq', ch', q', letters, choir', before, out'⟩ | ⟨_, letters⟩
  · refine .turn seq singer ch q' song own ne (hlead.trans proc) choir' ?_
    rw [out', out]
    by_cases heq : singer = p
    · subst heq
      rw [if_neg (before seq), if_neg (after seq)]
    · rw [hframe singer heq]
  -- the singer writes the byte
  · obtain ⟨rfl, rfl, rfl⟩ := turns_eq_turn letters
    refine .turn seq' p ch' q' song own ne (hlead.trans proc) choir' ?_
    have hmine : assigned cfg p = ch' := assigned_of_owner fits own
    have hne : ch' ≠ 0 := ne_zero_of_mem (List.mem_of_getElem? song)
    rw [if_neg (before seq')] at out
    rw [out', out, if_pos after, chorus_succ song own, if_pos ⟨hmine ▸ hne, hmine.symm⟩]
  -- the singer answers
  · obtain ⟨rfl, rfl, rfl⟩ := turns_eq_turn letters
    have hlt : seq' < cfg.song.bytes.length := (List.getElem?_eq_some_iff.mp song).1
    rw [if_pos before] at out
    refine .acked seq' p q' hlt (hlead.trans proc) (choir'.congr hc ?_) (out'.trans out)
    intro p' _
    by_cases heq : p' = p
    · subst heq
      simp [dones_zero]
    · simp [dones_zero, turns, heq]
  · exact absurd letters turns_ne_done

/-- After some of the `DONE`s a worker leaves, with a `BYE`, or nothing changes. -/
theorem dones_worker_step (hp : p ∈ cfg.pids) (hpc : p ≠ c) {i : ℕ} {acks q : List Msg}
    (choir : Choir cfg c (dones cfg c i) acks s q) (byes : ∀ m ∈ acks, m.kind = .BYE)
    (hs : Moves cfg s p s' call) :
    ∃ acks' q', Choir cfg c (dones cfg c i) acks' s' q' ∧ (∀ m ∈ acks', m.kind = .BYE) ∧
      s'.out = s.out ∧ ∃ k, acks'.length = acks.length + k ∧
        (leavers cfg c s').card = (leavers cfg c s).card + k := by
  have hframe : ∀ p' ≠ p, s'.proc p' = s.proc p' := fun p' hp' => hs.frame hp'
  rcases choir.worker_step hp hpc hs with
    ⟨q', choir', out', _, _, hbefore, hafter⟩ | ⟨_, _, _, letters⟩ | ⟨_, _, _, letters⟩ |
    ⟨q', letters, choir', before, after, out', _⟩
  · refine ⟨acks, q', choir', byes, out', 0, rfl, congrArg Finset.card (leavers_congr ?_)⟩
    intro p' _ _
    by_cases heq : p' = p
    · subst heq
      simp [hbefore, hafter]
    · rw [hframe p' heq]
  · exact absurd letters dones_ne_turn
  · exact absurd letters dones_ne_turn
  · refine ⟨_, q', choir', ?_, out', 1, List.length_append,
      leavers_insert hp hpc (by simp [before]) after hframe⟩
    intro m hm
    rcases List.mem_append.mp hm with hm | hm
    · exact byes m hm
    · rw [List.mem_singleton.mp hm]
      rfl

/-- A step of a worker after the registration stays in the phase of the
    conductor or, with the `ACK`, moves it from `turn` to `acked`. -/
theorem led_worker_step (fits : Fits cfg) (hc : c ∈ cfg.pids) (hp : p ∈ cfg.pids) (hpc : p ≠ c)
    (h : Led cfg c s) (hs : Moves cfg s p s' call) : Led cfg c s' := by
  have hlead : s'.proc c = s.proc c := hs.frame hpc.symm
  cases h with
  | assigning i q proc choir out =>
    rcases choir.worker_step hp hpc hs with
      ⟨q', choir', out'⟩ | ⟨_, _, _, letters⟩ | ⟨_, _, _, letters⟩ | ⟨_, letters⟩
    · exact .assigning i q' (hlead.trans proc) choir' (out'.trans out)
    all_goals exact absurd letters assigns_ne_two
  | singing seq q proc le choir out =>
    rcases choir.worker_step hp hpc hs with
      ⟨q', choir', out'⟩ | ⟨_, _, _, letters⟩ | ⟨_, _, _, letters⟩ | ⟨_, letters⟩
    · exact .singing seq q' (hlead.trans proc) le choir' (out'.trans out)
    all_goals simp [dones_zero] at letters
  | turn seq singer ch q song own ne proc choir out =>
    exact turn_worker_step fits hc hp hpc song own ne proc choir out hs
  | acked seq singer q lt proc choir out =>
    rcases choir.worker_step hp hpc hs with
      ⟨q', choir', out'⟩ | ⟨_, _, _, letters⟩ | ⟨_, _, _, letters⟩ | ⟨_, letters⟩
    · exact .acked seq singer q' lt (hlead.trans proc) choir' (out'.trans out)
    all_goals simp [dones_zero] at letters
  | dismissing i acks q proc choir byes count out =>
    obtain ⟨acks', q', choir', byes', out', k, hacks, hleft⟩ :=
      dones_worker_step hp hpc choir byes hs
    exact .dismissing i acks' q' (hlead.trans proc) choir' byes' (by omega) (out'.trans out)
  | awaiting k acks q proc choir byes count out =>
    obtain ⟨acks', q', choir', byes', out', j, hacks, hleft⟩ :=
      dones_worker_step hp hpc choir byes hs
    exact .awaiting k acks' q' (hlead.trans proc) choir' byes' (by omega) (out'.trans out)
  | finished proc queue workers out =>
    have hop : op cfg p (s.proc p) = .halt := by
      rw [workers p hp hpc]
      rfl
    exact absurd hop hs.of_halt

/-! ### Steps of the conductor -/

/-- A worker that has been sent nothing but its `ASSIGN` has not sung or left. -/
theorem Follows.early {l mail : List Msg} {P : Proc} (h : Follows cfg c p l P mail)
    (hl : l.length ≤ 1) : (∀ seq, P.pc ≠ .sendAck seq) ∧ P.pc ≠ .exited .success := by
  cases h with
  | locking | waiting | ready => simp
  | turned | sung | dismissed | left => simp at hl

theorem Follows.eq_left {l mail : List Msg} {P : Proc} (h : Follows cfg c p l P mail)
    (hpc : P.pc = .exited .success) : P = ⟨.exited .success, false, assigned cfg p⟩ := by
  cases h <;> simp at hpc ⊢

theorem leavers_goto {q : Option (List Msg)} {out : List (ℕ × UInt8)} (P : Proc) :
    leavers cfg c ((⟨q, s.proc, out⟩ : State).goto c P) = leavers cfg c s := by
  apply leavers_congr
  intro p _ hpc
  rw [Host.goto_proc_ne _ _ hpc]

/-- The conductor sends the `ASSIGN`s. -/
theorem led_assigning {i : ℕ} {q : List Msg} (hc : c ∈ cfg.pids)
    (proc : s.proc c = ⟨.assign (order cfg) i, true,
      if c ∈ (order cfg).take i then assigned cfg c else 0⟩)
    (choir : Choir cfg c (assigns cfg c i) [] s q) (out : s.out = [])
    (hs : Moves cfg s c s' call) : Led cfg c s' := by
  cases hi : (order cfg)[i]? with
  | some pid =>
    obtain ⟨_, _, rfl⟩ := hs.of_msgsnd (by rw [proc]; exact op_assign hi) choir.queue
    -- process `pid` has no letter yet, so it may get its first one
    have hnone : assigns cfg c i pid = [] := if_neg (not_mem_take hi)
    have hpost := choir.post (mem_of_getElem? hi) (m := assignMsg c pid (assigned cfg pid)) rfl
      (fun _ => by rw [hnone]; exact ⟨by simp, .assign⟩)
    refine .assigning (i + 1) _ ?_ ((hpost _).congr hc ?_) out
    · rw [Host.goto_proc_self]
      by_cases hpid : pid = c
      · subst hpid
        simp [mem_take_succ hi]
      · simp [mem_take_succ hi, hpid, Ne.symm hpid]
    · intro p _
      by_cases hpid : p = pid
      · subst hpid
        simp [assigns, mem_take_succ hi, not_mem_take hi]
      · simp [assigns, mem_take_succ hi, hpid]
  | none =>
    -- the loop is over: everybody has been sent its `ASSIGN`
    have hall : ∀ p, p ∈ (order cfg).take i ↔ p ∈ cfg.pids := mem_take_of_none hi
    rw [if_pos ((hall c).mpr hc)] at proc
    obtain ⟨_, rfl⟩ := hs.of_compute (by rw [proc]; exact op_assign_end hi)
    refine .singing 0 q (Host.goto_proc_self ..) (Nat.zero_le _)
      ((choir.stay _ _).congr hc ?_) out
    intro p hp
    rw [dones_zero]
    exact if_pos ((hall p).mpr hp)

/-- The conductor goes on in the song, or ends it. -/
theorem led_singing (fits : Fits cfg) {seq : ℕ} {q : List Msg} (hc : c ∈ cfg.pids)
    (proc : s.proc c = ⟨.sing (order cfg) seq, true, assigned cfg c⟩)
    (choir : Choir cfg c (dones cfg c 0) [] s q) (out : s.out = chorus cfg seq)
    (hs : Moves cfg s c s' call) : Led cfg c s' := by
  have hearly : ∀ p ∈ cfg.pids, p ≠ c →
      (∀ seq, (s.proc p).pc ≠ .sendAck seq) ∧ (s.proc p).pc ≠ .exited .success :=
    fun p hp hpc => (choir.follows p hp hpc).early (by simp [dones_zero])
  cases hseq : cfg.song.bytes[seq]? with
  | some ch =>
    have hlt : seq < cfg.song.bytes.length := (List.getElem?_eq_some_iff.mp hseq).1
    obtain ⟨singer, hsinger, hown⟩ := exists_owner fits (List.mem_of_getElem? hseq)
    by_cases hself : singer = c
    -- the conductor sings itself
    · subst hself
      obtain ⟨_, rfl⟩ := hs.of_write (by rw [proc]; exact op_sing_own fits hseq hown)
      refine .singing (seq + 1) q (Host.goto_proc_self ..) hlt (choir.stay _ _) ?_
      rw [chorus_succ hseq hown, ← out]
      rfl
    · obtain ⟨_, _, rfl⟩ :=
        hs.of_msgsnd (by rw [proc]; exact op_sing_turn hseq hown hself) choir.queue
      have hpost := choir.post hsinger (m := turnMsg c singer seq ch) rfl
        (fun _ => by rw [dones_zero]; exact ⟨by simp, .turn seq ch⟩)
      refine .turn seq singer ch _ hseq hown hself (Host.goto_proc_self ..) ((hpost _).congr hc ?_) ?_
      · intro p _
        by_cases hp : p = singer
        · subst hp
          simp [dones_zero, turns]
        · simp [dones_zero, turns, hp]
      · rw [Host.goto_proc_ne _ _ hself, if_neg ((hearly singer hsinger hself).1 seq)]
        exact out
  | none =>
    -- nobody has been dismissed while the song lasts
    have hempty : (leavers cfg c s).card = 0 := by
      refine Finset.card_eq_zero.mpr (Finset.filter_eq_empty_iff.mpr ?_)
      intro p hp
      exact (hearly p (Finset.mem_of_mem_erase hp) (Finset.ne_of_mem_erase hp)).2
    rw [chorus_end hseq] at out
    by_cases hnl : needs_newline cfg.song
    · obtain ⟨_, rfl⟩ := hs.of_write (by rw [proc]; exact op_sing_newline hseq hnl)
      refine .dismissing 0 [] q (Host.goto_proc_self ..) (choir.stay _ _) (by simp) ?_ ?_
      · rw [leavers_goto, hempty]
        rfl
      · rw [concert, if_pos hnl, ← out]
        rfl
    · obtain ⟨_, rfl⟩ := hs.of_compute (by rw [proc]; exact op_sing_end hseq hnl)
      refine .dismissing 0 [] q (Host.goto_proc_self ..) (choir.stay _ _) (by simp) ?_ ?_
      · exact (leavers_goto _ ▸ hempty).symm
      · rw [concert, if_neg hnl, List.append_nil]
        exact out

/-- The conductor sends the `DONE`s. -/
theorem led_dismissing {i : ℕ} {acks q : List Msg} (hc : c ∈ cfg.pids)
    (proc : s.proc c = ⟨.dismiss (order cfg) i, true, assigned cfg c⟩)
    (choir : Choir cfg c (dones cfg c i) acks s q) (byes : ∀ m ∈ acks, m.kind = .BYE)
    (count : acks.length = (leavers cfg c s).card) (out : s.out = concert cfg c)
    (hs : Moves cfg s c s' call) : Led cfg c s' := by
  cases hi : (order cfg)[i]? with
  | some pid =>
    by_cases hself : pid = c
    · subst hself
      obtain ⟨_, rfl⟩ := hs.of_compute (by rw [proc]; exact op_dismiss_self hi)
      refine .dismissing (i + 1) acks q (Host.goto_proc_self ..)
        ((choir.stay _ _).congr hc ?_) byes (count.trans ?_) out
      · intro p _
        simp only [dones, mem_take_succ hi]
        by_cases hp : p = pid <;> simp [hp]
      · exact congrArg Finset.card (leavers_goto _).symm
    · obtain ⟨_, _, rfl⟩ := hs.of_msgsnd (by rw [proc]; exact op_dismiss hi hself) choir.queue
      -- a worker gets its `DONE` only once
      have hone : dones cfg c i pid = [assignMsg c pid (assigned cfg pid)] :=
        if_neg fun h => not_mem_take hi h.1
      have hpost := choir.post (mem_of_getElem? hi) (m := doneMsg c pid) rfl
        (fun _ => by rw [hone]; exact ⟨by simp, .done⟩)
      refine .dismissing (i + 1) acks _ (Host.goto_proc_self ..) ((hpost _).congr hc ?_) byes
        (count.trans ?_) out
      · intro p _
        by_cases hp : p = pid
        · subst hp
          simp [dones, mem_take_succ hi, not_mem_take hi, hself]
        · simp [dones, mem_take_succ hi, hp]
      · exact congrArg Finset.card (leavers_goto _).symm
  | none =>
    obtain ⟨_, rfl⟩ := hs.of_compute (by rw [proc]; exact op_dismiss_end hi)
    refine .awaiting (cfg.n - 1) acks q (Host.goto_proc_self ..)
      ((choir.stay _ _).congr hc ?_) byes ?_ out
    · intro p _
      simp only [dones, mem_take_of_none hi, mem_take_n]
    · rw [leavers_goto, count]

/-- The conductor waits for the `BYE`s and removes the queue after the last. -/
theorem led_awaiting {k : ℕ} {acks q : List Msg} (hc : c ∈ cfg.pids)
    (proc : s.proc c = ⟨.awaitBye k, true, assigned cfg c⟩)
    (choir : Choir cfg c (dones cfg c cfg.n) acks s q) (byes : ∀ m ∈ acks, m.kind = .BYE)
    (count : k + (leavers cfg c s).card = cfg.n - 1 + acks.length) (out : s.out = concert cfg c)
    (hs : Moves cfg s c s' call) : Led cfg c s' := by
  by_cases hk : 0 < k
  · obtain ⟨m, q', hrecv, _, rfl⟩ :=
      hs.of_msgrcv (by rw [proc]; exact op_awaitBye hk) choir.queue
    obtain ⟨acks', rfl, choir'⟩ := choir.hear hrecv
    have hbye : m.kind = .BYE := byes m (by simp)
    refine .awaiting (k - 1) acks' q' ?_ (choir' _) (fun m' hm' => byes m' (by simp [hm'])) ?_ out
    · simp [hbye]
    · rw [leavers_goto]
      simp only [List.length_cons] at count
      omega
  · obtain ⟨_, rfl⟩ := hs.of_rmid (by rw [proc]; exact op_awaitBye_end hk)
    -- all the others have left
    have hcard : (cfg.pids.erase c).card = cfg.n - 1 := Finset.card_erase_of_mem hc
    have hall : leavers cfg c s = cfg.pids.erase c :=
      Finset.eq_of_subset_of_card_le (Finset.filter_subset _ _) (by omega)
    refine .finished (Host.goto_proc_self ..) rfl ?_ out
    intro p hp hpc
    rw [Host.goto_proc_ne _ _ hpc]
    have hleft : p ∈ leavers cfg c s := by
      rw [hall]
      exact Finset.mem_erase.mpr ⟨hpc, hp⟩
    exact (choir.follows p hp hpc).eq_left (Finset.mem_filter.mp hleft).2

/-- A step of the conductor after the registration. -/
theorem led_conductor_step (fits : Fits cfg) (hc : c ∈ cfg.pids) (h : Led cfg c s)
    (hs : Moves cfg s c s' call) : Led cfg c s' := by
  cases h with
  | assigning i q proc choir out => exact led_assigning hc proc choir out hs
  | singing seq q proc le choir out => exact led_singing fits hc proc choir out hs
  -- there is no answer to take before the singer has sent it
  | turn seq singer ch q song own ne proc choir out =>
    obtain ⟨m, q', hrecv, _, rfl⟩ := hs.of_msgrcv (by rw [proc]; exact op_awaitAck) choir.queue
    obtain ⟨acks', hnil, _⟩ := choir.hear hrecv
    cases hnil
  | acked seq singer q lt proc choir out =>
    obtain ⟨m, q', hrecv, _, rfl⟩ := hs.of_msgrcv (by rw [proc]; exact op_awaitAck) choir.queue
    obtain ⟨acks', hcons, choir'⟩ := choir.hear hrecv
    obtain ⟨rfl, rfl⟩ := List.cons.inj hcons
    exact .singing (seq + 1) q' (by simp [ackMsg]) lt (choir' _) out
  | dismissing i acks q proc choir byes count out =>
    exact led_dismissing hc proc choir byes count out hs
  | awaiting k acks q proc choir byes count out =>
    exact led_awaiting hc proc choir byes count out hs
  | finished proc queue workers out =>
    have hop : op cfg c (s.proc c) = .halt := by
      rw [proc]
      rfl
    exact absurd hop hs.of_halt

/-! ### All steps -/

/-- When everybody has been heard, the conductor sorts the pids and starts
    with the `ASSIGN`s. -/
theorem collecting_done (fits : Fits cfg) {heard : List ℕ} {q : List Msg}
    (proc : s.proc c = ⟨.collect heard, true, 0⟩)
    (muster : Muster cfg (some c) [] heard s q) (out : s.out = [])
    (hlen : ¬ heard.length < cfg.n) (hs : Moves cfg s c s' call) : Led cfg c s' := by
  obtain ⟨hsort, hreg, hall⟩ := muster.all_heard hlen
  obtain ⟨_, rfl⟩ := hs.of_compute (by rw [proc]; exact op_collect_end fits hlen)
  rw [hsort]
  refine .assigning 0 q (by simp) ⟨muster.queue, muster.lock, hreg, muster.ack, ?_, ?_, ?_,
    muster.types⟩ out
  · simpa [assigns] using muster.letters c
  · intro p hp hpc
    rw [Host.goto_proc_ne _ _ hpc, muster.letters p]
    simp only [assigns, List.take_zero, List.not_mem_nil, ↓reduceIte]
    rcases muster.fresh p hp (by simpa using hpc.symm) with hf | hf | ⟨_, hf⟩
    · exact absurd (by rw [hf]) (hall p hp)
    · rw [hf]
      exact .locking []
    · rw [hf]
      exact .waiting []
  · intro p _ _
    simp only [assigns, List.take_zero, List.not_mem_nil, ↓reduceIte]
    exact .nothing

/-- **Phases.** Every step of a choir with enough processes keeps the invariant. -/
theorem inv_step (fits : Fits cfg) (h : Inv cfg s) (hp : p ∈ cfg.pids)
    (hs : Moves cfg s p s' call) : Inv cfg s' := by
  cases h with
  | electing q muster out =>
    rcases muster.fresh p hp (by simp) with hproc | hproc | ⟨hno, _⟩
    · obtain ⟨rfl, hmuster⟩ := muster.register hp hproc hs
      exact .electing _ hmuster out
    · obtain ⟨hproc', hout, q', hmuster⟩ := muster.take_lock hp hproc hs
      exact .collecting p [] q' hp hproc' hmuster (hout.trans out)
    · exact absurd rfl hno
  | collecting c heard q hc proc muster out =>
    by_cases hpc : p = c
    · subst hpc
      by_cases hlen : heard.length < cfg.n
      · obtain ⟨p', q', hproc', hout, hmuster⟩ := muster.hear proc hlen hs
        exact .collecting p _ q' hc hproc' hmuster (hout.trans out)
      · exact .led p hc (collecting_done fits proc muster out hlen hs)
    · have hlead : s'.proc c = s.proc c := hs.frame (Ne.symm hpc)
      rcases muster.fresh p hp (by simpa using Ne.symm hpc) with hproc | hproc | ⟨_, hproc⟩
      · obtain ⟨rfl, hmuster⟩ := muster.register hp hproc hs
        exact .collecting c heard _ hc (hlead.trans proc) hmuster out
      · obtain ⟨rfl, hmuster⟩ := muster.miss_lock hp hproc hs
        exact .collecting c heard q hc (hlead.trans proc) hmuster out
      -- no `ASSIGN` has been sent yet
      · obtain ⟨m, q', hrecv, _, _⟩ :=
          hs.of_msgrcv (by rw [hproc]; exact op_awaitAssign) muster.queue
        have hbox : mail (MT_TO p) q = m :: mail (MT_TO p) q' := (recv_eq_some hrecv).2.1
        rw [muster.letters p] at hbox
        cases hbox
  | led c hc hled =>
    by_cases hpc : p = c
    · subst hpc
      exact .led p hc (led_conductor_step fits hc hled hs)
    · exact .led c hc (led_worker_step fits hc hp hpc hled hs)

theorem inv_reachable (fits : Fits cfg) (h : (choir cfg).Reachable s) : Inv cfg s :=
  (choir cfg).invariant (I := Inv cfg)
    (fun s (hs : s = initState) => by rw [hs]; exact inv_init)
    (fun _ _ _ hi hs => inv_step fits hi hs.1 (step_of_next hs.2)) h

end steps

end Bogatyr
