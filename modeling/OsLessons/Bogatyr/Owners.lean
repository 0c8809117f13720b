import OsLessons.Bogatyr.Success

/-! # Three tables, one assignment

  `seen` and `uniq`, the `owner` table, and the search that goes from a pid
  back to its byte. `symbols_assigned` says that they describe one injective
  map from the bytes of the song to the pids, whatever order the registrations
  came in, and that the `ASSIGN` messages of a run carry it.
-/

namespace Bogatyr

open Lts MsgQueue

/-! ### The overflow exit -/

/-- The loop of `collect_unique` reaches its `return` inside the loop. -/
inductive Overflow (out_cap : ℕ) : List UInt8 → (UInt8 → Bool) → List UInt8 → Prop where
  | seen {c s seen out} (hc : seen c = true) : Overflow out_cap s seen out →
      Overflow out_cap (c :: s) seen out
  | store {c s seen out} (hc : seen c = false) (hroom : out.length < out_cap) :
      Overflow out_cap s (Function.update seen c true) (out ++ [c]) →
      Overflow out_cap (c :: s) seen out
  | full {c s seen out} (hc : seen c = false) (hfull : out_cap ≤ out.length) :
      Overflow out_cap (c :: s) seen out

/-- At the exit the array is full of distinct bytes that have been seen, and
    another byte has not. -/
theorem Overflow.unseen {out_cap : ℕ} {s : List UInt8} {seen : UInt8 → Bool} {out : List UInt8}
    (h : Overflow out_cap s seen out) (hnodup : out.Nodup) (hseen : ∀ c, seen c = true ↔ c ∈ out) :
    ∃ l : List UInt8, l.Nodup ∧ out_cap < l.length := by
  induction h with
  | seen _ _ ih => exact ih hnodup hseen
  | @store c s seen out hc _ _ ih =>
    have hnew : c ∉ out := fun hmem => by simp [(hseen c).mpr hmem] at hc
    refine ih (List.nodup_append.mpr ⟨hnodup, List.nodup_singleton c, ?_⟩) fun b => ?_
    · intro a ha b hb
      rw [List.mem_singleton.mp hb]
      rintro rfl
      exact hnew ha
    · by_cases hb : b = c
      · subst hb
        simp
      · simp [hb, hseen]
  | @full c s seen out hc hfull =>
    have hnew : c ∉ out := fun hmem => by simp [(hseen c).mpr hmem] at hc
    exact ⟨c :: out, List.nodup_cons.mpr ⟨hnew, hnodup⟩, Nat.lt_succ_of_le hfull⟩

/-- There are only 256 bytes. -/
theorem not_overflow (s : CStr) : ¬ Overflow 256 s.bytes (fun _ => false) [] := by
  intro h
  obtain ⟨l, hnodup, hlong⟩ := h.unseen List.nodup_nil (by simp)
  have hle := length_le_of_nodup hnodup
  omega

/-! ### First occurrences -/

section
variable {α : Type*} [DecidableEq α] {a b : α} {l : List α} {p : α → Bool}

/-- Leaving out other elements does not change which of two comes first. -/
theorem idxOf_lt_of_filter (hb : p b = true)
    (h : (l.filter p).idxOf a < (l.filter p).idxOf b) : l.idxOf a < l.idxOf b := by
  induction l with
  | nil => exact absurd h (lt_irrefl _)
  | cons x l ih =>
    by_cases hxb : x = b
    · rw [hxb, List.filter_cons, if_pos hb, List.idxOf_cons_self] at h
      exact absurd h (Nat.not_lt_zero _)
    rw [List.idxOf_cons_ne l hxb]
    by_cases hxa : x = a
    · rw [hxa, List.idxOf_cons_self]
      exact Nat.succ_pos _
    rw [List.idxOf_cons_ne l hxa]
    refine Nat.succ_lt_succ (ih ?_)
    rw [List.filter_cons] at h
    split at h
    · rw [List.idxOf_cons_ne _ hxa, List.idxOf_cons_ne _ hxb] at h
      exact Nat.lt_of_succ_lt_succ h
    · exact h

/-- Without its duplicates a list is in the order of first occurrence. -/
theorem pairwise_idxOf_eraseDups (l : List α) :
    l.eraseDups.Pairwise fun a b => l.idxOf a < l.idxOf b := by
  generalize hn : l.length = n
  induction n using Nat.strong_induction_on generalizing l with
  | _ n ih =>
    match l with
    | [] => simp
    | a :: as =>
      have hlen := List.length_filter_le (fun b => !b == a) as
      simp only [List.length_cons] at hn
      have hne : ∀ b ∈ (as.filter fun b => !b == a).eraseDups, (!b == a) = true := fun b hb =>
        (List.mem_filter.mp (List.mem_eraseDups.mp hb)).2
      have hne' : ∀ b, (!b == a) = true → a ≠ b := fun b hb => (bne_iff_ne.mp hb).symm
      rw [List.eraseDups_cons, List.pairwise_cons]
      constructor
      · intro b hb
        rw [List.idxOf_cons_self, List.idxOf_cons_ne as (hne' b (hne b hb))]
        exact Nat.succ_pos _
      · have hrest := ih _ (by omega) (as.filter fun b => !b == a) rfl
        refine hrest.imp_of_mem fun {b c} hb hc h => ?_
        rw [List.idxOf_cons_ne as (hne' b (hne b hb)), List.idxOf_cons_ne as (hne' c (hne c hc))]
        exact Nat.succ_lt_succ (idxOf_lt_of_filter (hne c hc) h)

end

/-! ### What is sent -/

section
variable {cfg : Config} {p pid : ℕ} {s s' : State} {m : Msg}

/-- Only the `ASSIGN` loop sends an `ASSIGN`. -/
theorem op_assign_kind {P : Proc} {k : Bool → Proc} (h : op cfg p P = .msgsnd m k)
    (hkind : m.kind = .ASSIGN) : ∃ pids i, P.pc = .assign pids i := by
  revert h
  fun_cases op cfg p P
  all_goals simp [Proc.xmsgsnd, Proc.xmsgrcv]
  all_goals first
    | next hpc _ _ _ => exact fun _ _ => ⟨_, _, hpc⟩
    | rintro rfl
      cases hkind

/-- The `ASSIGN` of a run carries the byte of the process it is sent to. -/
theorem assign_sent (fits : Fits cfg) (hs : (choir cfg).Reachable s)
    (hstep : (choir cfg).step s ⟨p, .sent m⟩ s') (hkind : m.kind = .ASSIGN) :
    ∃ pid ∈ cfg.pids, m = assignMsg p pid (assigned cfg pid) := by
  obtain ⟨hp, hnext⟩ := hstep
  cases step_of_next hnext with
  | sent hop hq hroom =>
    obtain ⟨pids, i, hpc⟩ := op_assign_kind hop hkind
    rcases (inv_reachable fits hs).cases_proc hp with hw | ⟨_, _, proc, _⟩ | led
    · have := hw.not_conducting
      simp [hpc, Pc.conducting] at this
    · simp [proc] at hpc
    · cases led with
      | assigning j q proc choir out =>
        rw [proc] at hop
        cases hj : (order cfg)[j]? with
        | none =>
          rw [op_assign_end hj] at hop
          cases hop
        | some pid =>
          rw [op_assign hj] at hop
          injection hop with hm
          exact ⟨pid, mem_order.mp (List.mem_of_getElem? hj), hm.symm⟩
      | singing _ _ proc | turn _ _ _ _ _ _ _ proc | acked _ _ _ _ proc | dismissing _ _ _ proc
      | awaiting _ _ _ proc | finished proc => simp [proc] at hpc

end

/-! ### The assignment -/

/-- The array `uniq`, the `owner` table and the bytes sent to the processes in
    `pids` describe one map from the bytes of the song. -/
structure Consistent (song : CStr) (pids : List ℕ) (uniq : List UInt8)
    (owner : UInt8 → Option ℕ) (sent : ℕ → UInt8) : Prop where
  nodup : uniq.Nodup
  mem : ∀ c, c ∈ uniq ↔ c ∈ song.bytes
  first : uniq.Pairwise fun a b => song.bytes.idxOf a < song.bytes.idxOf b
  owned : ∀ c ∈ song.bytes, ∃! p, p ∈ pids ∧ owner c = some p
  apart : ∀ c ∈ song.bytes, ∀ c' ∈ song.bytes, c ≠ c' → owner c ≠ owner c'
  /-- also for a byte that is not in the song, which nobody owns -/
  sent_iff : ∀ p ∈ pids, ∀ c, c ≠ 0 → (sent p = c ↔ owner c = some p)
  sent_zero : ∀ p ∈ pids, sent p = 0 ↔ ∀ c, owner c ≠ some p

theorem consistent {cfg : Config} (fits : Fits cfg) :
    Consistent cfg.song (order cfg) (symbols cfg) (owner cfg) (assigned cfg) where
  nodup := nodup_symbols
  mem _ := mem_symbols
  first := by
    rw [symbols, collect_unique_eq]
    exact pairwise_idxOf_eraseDups _
  owned c hc := by
    obtain ⟨p, hp, hown⟩ := exists_owner fits hc
    refine ⟨p, ⟨mem_order.mpr hp, hown⟩, fun p' hp' => ?_⟩
    exact Option.some.inj (hp'.2.symm.trans hown)
  apart c hc c' hc' hne heq := by
    obtain ⟨p, _, hown⟩ := exists_owner fits hc
    exact hne (owner_inj fits hown (heq.symm.trans hown))
  sent_iff p _ c hc := by
    refine ⟨fun h => ?_, assigned_of_owner fits⟩
    rw [← h] at hc ⊢
    exact owner_of_assigned hc
  sent_zero p _ := by
    constructor
    · intro hzero c hown
      have hc := (owner_mem fits hown).1
      exact ne_zero_of_mem hc ((assigned_of_owner fits hown).symm.trans hzero)
    · intro hnone
      by_contra hne
      exact hnone _ (owner_of_assigned hne)

/-- **Symbol assignment**: `collect_unique` returns the distinct bytes of the
    song in the order of first occurrence and never takes its overflow exit;
    with enough processes the tables describe one injective map, which depends
    neither on the order of the registrations nor on the run. -/
theorem symbols_assigned (cfg : Config) (fits : Fits cfg) {regs : List ℕ} (hnodup : regs.Nodup)
    (hregs : ∀ p, p ∈ regs ↔ p ∈ cfg.pids) :
    ¬ Overflow 256 cfg.song.bytes (fun _ => false) [] ∧
    Consistent cfg.song (qsort regs) (collect_unique cfg.song 256)
      (owner_of (collect_unique cfg.song 256) (qsort regs))
      (find_assigned (collect_unique cfg.song 256)
        (owner_of (collect_unique cfg.song 256) (qsort regs))) ∧
    (∀ regs', regs'.Perm regs → qsort regs' = qsort regs) ∧
    ∀ s p s' m, (choir cfg).Reachable s → (choir cfg).step s ⟨p, .sent m⟩ s' →
      m.kind = .ASSIGN → ∃ pid ∈ qsort regs, m.mtype = MT_TO pid ∧
        m.ch = find_assigned (collect_unique cfg.song 256)
          (owner_of (collect_unique cfg.song 256) (qsort regs)) pid := by
  have horder : qsort regs = order cfg := qsort_eq hnodup hregs
  refine ⟨not_overflow cfg.song, ?_, ?_, ?_⟩
  · rw [horder]
    exact consistent fits
  · intro regs' hperm
    rw [horder]
    exact qsort_eq (hperm.nodup_iff.mpr hnodup) fun p => hperm.mem_iff.trans (hregs p)
  · intro s p s' m hs hstep hkind
    obtain ⟨pid, hpid, rfl⟩ := assign_sent fits hs hstep hkind
    rw [horder]
    exact ⟨pid, mem_order.mpr hpid, rfl, rfl⟩

/-- Process 2 registers first and still gets the second byte. -/
theorem symbols_assigned_duet :
    find_assigned (collect_unique duet.song 256)
      (owner_of (collect_unique duet.song 256) (qsort [2, 1])) 2 = 98 := by
  have hnodup : [2, 1].Nodup := by decide
  have hregs : ∀ p, p ∈ [2, 1] ↔ p ∈ duet.pids := by
    intro p
    simp [duet, or_comm]
  obtain ⟨_, hcons, _, _⟩ := symbols_assigned duet (by decide) hnodup hregs
  exact (hcons.sent_iff 2 (by decide) 98 (by decide)).mpr (by decide)

end Bogatyr
