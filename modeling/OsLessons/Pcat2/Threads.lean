import OsLessons.Pcat2.Invariant

/-! # pcat2: who sleeps, and every reachable state

  - `Sleeps`: why a thread may sleep: the conditions of its wait still hold.
  - `disciplined`: critical sections come after a `lock` and end outside.
  - `step_good`, `run_good`: all invariants, over steps and runs.
-/

namespace Pcat2

open Lts Monitor

/-! ### Sleepers -/

/-- Where each thread sleeps, and that what it waits for has not happened. -/
structure Sleeps (m : Shared) (w : WriterPc) (r : ReaderPc) (z : Thread → Option Cond) :
    Prop where
  writer : ∀ c, z .writer = some c →
    c = .can_put ∧ (∃ cur tmp, w = .put cur tmp) ∧ m.full = true ∧ m.stop = false
  reader : ∀ c, z .reader = some c →
    c = .can_get ∧ r = .get ∧ m.full = false ∧ m.done = false ∧ m.stop = false

section sleepers
variable {m : Shared} {w w' : WriterPc} {r r' : ReaderPc} {z z' : Thread → Option Cond}
  {ws : List (Wake Cond)} {picks : List Thread}

theorem Sleeps.mono (h : Sleeps m w r z) (hz : ∀ t c, z' t = some c → z t = some c) :
    Sleeps m w r z' where
  writer := fun c hc => h.writer c (hz _ _ hc)
  reader := fun c hc => h.reader c (hz _ _ hc)

theorem Sleeps.writer_moves (h : Sleeps m w r z) (hz : z .writer = none) :
    Sleeps m w' r z where
  writer := fun c hc => by simp [hz] at hc
  reader := h.reader

theorem Sleeps.reader_moves (h : Sleeps m w r z) (hz : z .reader = none) :
    Sleeps m w r' z where
  writer := h.writer
  reader := fun c hc => by simp [hz] at hc

/-- Only the reader sleeps on `can_get`, so any wake-up there reaches it. -/
theorem Sleeps.reader_roused (h : Sleeps m w r z) (hz : rouse ws picks z = some z')
    (hws : .signal .can_get ∈ ws ∨ .broadcast .can_get ∈ ws) : z' .reader = none := by
  cases hr : z' .reader with
  | none => rfl
  | some c =>
    obtain ⟨rfl, -⟩ := h.reader c (rouse_mono hz hr)
    exfalso
    rcases hws with hsig | hall
    · apply rouse_signal hz hsig _ hr
      intro u hu
      cases u with
      | writer => cases (h.writer _ hu).1
      | reader => rfl
    · exact rouse_broadcast hz hall _ hr

/-- Only the writer sleeps on `can_put`. -/
theorem Sleeps.writer_roused (h : Sleeps m w r z) (hz : rouse ws picks z = some z')
    (hws : .signal .can_put ∈ ws ∨ .broadcast .can_put ∈ ws) : z' .writer = none := by
  cases hw : z' .writer with
  | none => rfl
  | some c =>
    obtain ⟨rfl, -⟩ := h.writer c (rouse_mono hz hw)
    exfalso
    rcases hws with hsig | hall
    · apply rouse_signal hz hsig _ hw
      intro u hu
      cases u with
      | writer => rfl
      | reader => cases (h.reader _ hu).1
    · exact rouse_broadcast hz hall _ hw

/-- After its critical section the writer does not sleep, and the reader does
    only if its wait goes on. -/
theorem Sleeps.writer_awake {m' : Shared} (h : ∀ c, z .reader = some c →
      c = .can_get ∧ r = .get ∧ m'.full = false ∧ m'.done = false ∧ m'.stop = false) :
    Sleeps m' w r (Function.update z .writer none) where
  writer := fun c hc => by simp at hc
  reader := fun c hc => h c (by simpa using hc)

theorem Sleeps.reader_awake {m' : Shared} (h : ∀ c, z .writer = some c →
      c = .can_put ∧ (∃ cur tmp, w = .put cur tmp) ∧ m'.full = true ∧ m'.stop = false) :
    Sleeps m' w r (Function.update z .reader none) where
  writer := fun c hc => h c (by simpa using hc)
  reader := fun c hc => by simp at hc

theorem Sleeps.writer_leave {k : Shared → Leave Shared Cond WriterPc} (h : Sleeps m w r z)
    (hop : writer_thread w = .critical k) (hz : rouse (k m).wakes picks z = some z') :
    Sleeps (k m).data (k m).next r (Function.update z' .writer (k m).sleep) := by
  fun_cases writer_thread w
  all_goals simp only [writer_thread, reduceCtorEq, Op.critical.injEq] at hop
  all_goals try simp_all
  all_goals subst hop
  · next c tmp =>
    -- the chunk is put with a signal that reaches the reader; on the other two
    -- ways nothing changes for it
    have hroused := h.reader_roused hz
    have hmono := fun c => h.reader c ∘ rouse_mono hz
    unfold putChunk at hroused hmono ⊢
    split at hroused
    · next hwait =>
      rw [if_pos hwait]
      constructor
      -- the test of the `while` is what `Sleeps` asks for
      · intro c' hc'
        simp only [Function.update_self, Option.some.injEq] at hc'
        simpa [← hc'] using hwait
      · intro c' hc'
        exact hmono c' (by simpa using hc')
    · next hwait =>
      rw [if_neg hwait]
      split at hroused
      · next hstop =>
        rw [if_pos hstop]
        exact .writer_awake hmono
      · next hstop =>
        rw [if_neg hstop]
        apply Sleeps.writer_awake
        intro c' hc'
        simp [hroused] at hc'
  -- `check` wakes nobody and changes nothing
  · apply Sleeps.writer_awake
    intro c' hc'
    exact h.reader c' (rouse_mono hz hc')
  · apply Sleeps.writer_awake
    intro c' hc'
    simp [h.reader_roused hz] at hc'
  · apply Sleeps.writer_awake
    intro c' hc'
    simp [h.reader_roused hz] at hc'

theorem Sleeps.reader_leave {k : Shared → Leave Shared Cond ReaderPc} (h : Sleeps m w r z)
    (hop : reader_thread r = .critical k) (hz : rouse (k m).wakes picks z = some z') :
    Sleeps (k m).data w (k m).next (Function.update z' .reader (k m).sleep) := by
  fun_cases reader_thread r
  all_goals simp only [reader_thread, reduceCtorEq, Op.critical.injEq] at hop
  all_goals subst hop
  · have hroused := h.writer_roused hz
    have hmono := fun c => h.writer c ∘ rouse_mono hz
    unfold getChunk at hroused hmono ⊢
    split at hroused
    · next hwait =>
      rw [if_pos hwait]
      constructor
      · intro c' hc'
        exact hmono c' (by simpa using hc')
      · intro c' hc'
        simp only [Function.update_self, Option.some.injEq] at hc'
        simpa [← hc', and_assoc] using hwait
    · next hwait =>
      rw [if_neg hwait]
      split at hroused
      · next hstop =>
        rw [if_pos hstop]
        exact .reader_awake hmono
      · next hstop =>
        rw [if_neg hstop]
        split at hroused
        · next hfin =>
          rw [if_pos hfin]
          exact .reader_awake hmono
        · next hfin =>
          rw [if_neg hfin]
          apply Sleeps.reader_awake
          intro c' hc'
          simp [hroused] at hc'
  · apply Sleeps.reader_awake
    intro c' hc'
    simp [h.writer_roused hz] at hc'

end sleepers

/-! ### Critical sections -/

@[simp] theorem writerPc_goto_writer (s : State) (w : WriterPc) :
    writerPc (s.goto .writer w) = w := Host.goto_thread_self ..
@[simp] theorem readerPc_goto_writer (s : State) (w : WriterPc) :
    readerPc (s.goto .writer w) = readerPc s := Host.goto_thread_ne _ _ (by decide)
@[simp] theorem writerPc_goto_reader (s : State) (r : ReaderPc) :
    writerPc (s.goto .reader r) = writerPc s := Host.goto_thread_ne _ _ (by decide)
@[simp] theorem readerPc_goto_reader (s : State) (r : ReaderPc) :
    readerPc (s.goto .reader r) = r := Host.goto_thread_self ..

theorem openOperand_outside {f : Operand} {fs : List Operand} {x x' : World} {a : Answer}
    {w : WriterPc} (h : openOperand f fs x a = some (x', w)) : ¬ (writer_thread w).Inside := by
  unfold openOperand at h
  split at h <;> cases h <;> simp [writer_thread]

theorem readChunk_outside {c : Cursor} {x x' : World} {a : Answer} {w : WriterPc}
    (h : readChunk c x a = some (x', w)) : ¬ (writer_thread w).Inside := by
  unfold readChunk at h
  split at h
  · split at h <;> cases h
    simp [writer_thread]
  · split at h <;> cases h
    simp only [writer_thread]
    split <;> simp
  · split at h <;> cases h <;> simp [writer_thread]
  · cases h

theorem writeChunk_outside {left : Bytes} {x x' : World} {a : Answer} {r : ReaderPc}
    (h : writeChunk left x a = some (x', r)) : ¬ (reader_thread r).Inside := by
  unfold writeChunk at h
  split at h
  · split at h <;> cases h
    cases List.drop _ left <;> simp [reader_thread]
  · split at h <;> cases h
    · cases left <;> simp [reader_thread]
    · simp [reader_thread]
  · cases h

/-- Every critical section of the writer ends outside, and before a `lock` if
    it ends in a wait. -/
theorem writer_leaves {w : WriterPc} {k : Shared → Leave Shared Cond WriterPc} (m : Shared)
    (hop : writer_thread w = .critical k) : ¬ (writer_thread (k m).next).Inside ∧
      ∀ c, (k m).sleep = some c → ∃ w', writer_thread (k m).next = .lock w' := by
  fun_cases writer_thread w
  all_goals simp only [writer_thread, reduceCtorEq, Op.critical.injEq] at hop
  all_goals try simp_all
  all_goals subst hop
  · unfold putChunk
    split
    · simp [writer_thread]
    · split
      · simp only [writer_thread]
        split <;> simp
      · simp [writer_thread]
  · next fs => cases hstop : m.stop <;> cases fs <;> simp [hstop, writer_thread]
  · next k =>
    rcases k with _ | c
    · simp [WriterPc.afterFail, writer_thread]
    · simp only [WriterPc.afterFail, writer_thread]
      split <;> simp
  · simp [writer_thread]

theorem reader_leaves {r : ReaderPc} {k : Shared → Leave Shared Cond ReaderPc} (m : Shared)
    (hop : reader_thread r = .critical k) : ¬ (reader_thread (k m).next).Inside ∧
      ∀ c, (k m).sleep = some c → ∃ r', reader_thread (k m).next = .lock r' := by
  fun_cases reader_thread r
  all_goals simp only [reader_thread, reduceCtorEq, Op.critical.injEq] at hop
  all_goals subst hop
  · unfold getChunk
    split
    · simp [reader_thread]
    · split
      · simp [reader_thread]
      · split
        · simp [reader_thread]
        · cases m.buf <;> simp [reader_thread]
  · simp [reader_thread]

theorem disciplined : Disciplined op where
  call := by
    rintro (_ | _) l k x a x' l' hop hk
    · change writer_thread l = .call k at hop
      show ¬ (writer_thread l').Inside
      fun_cases writer_thread l
      all_goals simp only [writer_thread, reduceCtorEq, Op.call.injEq] at hop
      all_goals try simp_all
      all_goals subst hop
      · exact openOperand_outside hk
      · exact readChunk_outside hk
    · change reader_thread l = .call k at hop
      show ¬ (reader_thread l').Inside
      fun_cases reader_thread l
      all_goals simp only [reader_thread, reduceCtorEq, Op.call.injEq] at hop
      subst hop
      exact writeChunk_outside hk
  lock := by
    rintro (_ | _) l l' hop
    · change writer_thread l = .lock l' at hop
      show (writer_thread l').Inside
      fun_cases writer_thread l
      all_goals simp_all only [writer_thread, reduceCtorEq, Op.lock.injEq]
      all_goals subst hop
      all_goals trivial
    · change reader_thread l = .lock l' at hop
      show (reader_thread l').Inside
      fun_cases reader_thread l
      all_goals simp only [reader_thread, reduceCtorEq, Op.lock.injEq] at hop
      all_goals subst hop
      all_goals simp [reader_thread]
  leave := by
    rintro (_ | _) l k m hop
    · exact (writer_leaves m hop).1
    · exact (reader_leaves m hop).1
  sleep := by
    rintro (_ | _) l k m c hop hsleep
    · exact (writer_leaves m hop).2 c hsleep
    · exact (reader_leaves m hop).2 c hsleep

/-! ### Every reachable state -/

/-- The invariants of the program over a whole state. -/
structure Good (args : Args) (s : State) : Prop where
  inv : Inv args s.data (writerPc s) (readerPc s) s.world
  sleeps : Sleeps s.data (writerPc s) (readerPc s) s.asleep
  owned : Owned op s

theorem inv_init (args : Args) : Inv args mon_init (.start args) .get {} where
  writer_at := by
    cases args with
    | stdin content => exact ⟨[], [], rfl, rfl⟩
    | files fs => exact ⟨[], rfl, rfl⟩
  input := List.nil_prefix
  output := List.nil_prefix
  flow := fun _ => by cases args <;> rfl
  buf := Nat.zero_le _
  writer_faults := fun f hf => by cases hf
  reader_faults := fun f hf => by cases hf
  writer_live := fun _ f hf => by cases hf
  reader_live := fun _ f hf => by cases hf
  stop_iff := by simp [mon_init]
  first := fun f hf => by cases hf
  done_iff := by cases args <;> simp [mon_init, WriterPc.start]
  reader_exit := fun hr => by cases hr

theorem good_init (args : Args) : Good args (init args) where
  inv := inv_init args
  sleeps := by constructor <;> intro c hc <;> cases hc
  owned := by
    constructor
    · rintro (_ | _)
      · show (writer_thread (.start args)).Inside ↔ _
        rcases args with content | (_ | ⟨f, fs⟩) <;> simp [WriterPc.start, writer_thread, init]
      · show (reader_thread .get).Inside ↔ _
        simp [reader_thread, init]
    · intro t c hc
      cases hc

/-- A step of the writer, from what the threads see of it. -/
theorem Good.writer {args : Args} {s : State} {w : WriterPc}
    (hinv : Inv args s.data w (readerPc s) s.world)
    (hsleeps : Sleeps s.data w (readerPc s) s.asleep) (howned : Owned op (s.goto .writer w)) :
    Good args (s.goto .writer w) :=
  ⟨by simpa using hinv, by simpa using hsleeps, howned⟩

theorem Good.reader {args : Args} {s : State} {r : ReaderPc}
    (hinv : Inv args s.data (writerPc s) r s.world)
    (hsleeps : Sleeps s.data (writerPc s) r s.asleep) (howned : Owned op (s.goto .reader r)) :
    Good args (s.goto .reader r) :=
  ⟨by simpa using hinv, by simpa using hsleeps, howned⟩

theorem step_good {args : Args} {s s' : State} {e : Event Thread Answer} (h : Good args s)
    (hstep : Monitor.Step op s e s') : Good args s' := by
  have howned := hstep.owned disciplined h.owned
  -- who calls or leaves does not sleep
  have hawake : ∀ t, (∀ l, op t (s.thread t) ≠ .lock l) → s.asleep t = none := by
    intro t ht
    cases hz : s.asleep t with
    | none => rfl
    | some c =>
      obtain ⟨l, hl⟩ := h.owned.asleep t c hz
      exact absurd hl (ht l)
  -- one preservation lemma for each thread and kind of step
  cases hstep with
  | @call t a k x l hop hk =>
    have hz := hawake t (by simp [hop])
    cases t with
    | writer => exact .writer (h.inv.writer_call hop hk) (h.sleeps.writer_moves hz) howned
    | reader => exact .reader (h.inv.reader_call hop hk) (h.sleeps.reader_moves hz) howned
  | @lock t l hop hfree hz =>
    cases t with
    | writer => exact .writer (h.inv.writer_lock hop) (h.sleeps.writer_moves hz) howned
    | reader => exact .reader (h.inv.reader_lock hop) (h.sleeps.reader_moves hz) howned
  | @leave t picks k z hop hrouse =>
    cases t with
    | writer =>
      exact .writer (h.inv.writer_leave hop) (h.sleeps.writer_leave hop hrouse) howned
    | reader =>
      exact .reader (h.inv.reader_leave hop) (h.sleeps.reader_leave hop hrouse) howned
  | @spurious t _ => exact ⟨h.inv, h.sleeps.mono fun _ _ => of_update_none, howned⟩

theorem run_good {args : Args} {s s' : State} {es : List (Event Thread Answer)}
    (hrun : (pcat2 args).Run s es s') (h : Good args s) : Good args s' := by
  induction hrun with
  | nil => exact h
  | cons hstep _ ih => exact ih (step_good h hstep)

end Pcat2
