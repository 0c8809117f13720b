import OsLessons.Pcat2.Threads

/-! # pcat2: failures

  `Faulted` and `Broken` say of a state that an operand, or standard output,
  has failed. `run_fails`: they hold exactly if the run has such an event.
-/

namespace Pcat2

open Lts Monitor

/-! ### Failures of a run -/

/-- An `open` or a `read` has failed. -/
def Faulted (m : Shared) (w : WriterPc) : Prop :=
  (∃ f ∈ m.calls, f.caller = .writer) ∨ w.Failing

section failures
variable {m : Shared} {w w' : WriterPc} {r r' : ReaderPc} {x x' : World} {a : Answer}

theorem openOperand_fails {f : Operand} {fs : List Operand}
    (h : openOperand f fs x a = some (x', w')) :
    (w'.Failing ↔ a.operandFails = true) ∧ a.stdoutFails = false := by
  unfold openOperand at h
  split at h <;> cases h <;> simp [WriterPc.Failing, Answer.operandFails, Answer.stdoutFails]

theorem readChunk_fails {c : Cursor} (h : readChunk c x a = some (x', w')) :
    (w'.Failing ↔ a.operandFails = true) ∧ a.stdoutFails = false := by
  unfold readChunk at h
  split at h
  · split at h <;> cases h
    simp [WriterPc.Failing, Answer.operandFails, Answer.stdoutFails]
  · split at h <;> cases h
    simp [WriterPc.Failing, Answer.operandFails, Answer.stdoutFails]
  · split at h <;> cases h <;>
      simp_all [WriterPc.Failing, Answer.operandFails, Answer.stdoutFails]
  · cases h

theorem writeChunk_fails {left : Bytes} (h : writeChunk left x a = some (x', r')) :
    (r'.Failing ↔ a.stdoutFails = true) ∧ a.operandFails = false := by
  unfold writeChunk at h
  split at h
  · split at h <;> cases h
    simp [ReaderPc.Failing, Answer.operandFails, Answer.stdoutFails]
  · split at h <;> cases h <;>
      simp_all [ReaderPc.Failing, Answer.operandFails, Answer.stdoutFails]
  · cases h

theorem writer_call_fails {k : World → Answer → Option (World × WriterPc)}
    (hop : writer_thread w = .call k) (ha : k x a = some (x', w')) :
    (w'.Failing ↔ w.Failing ∨ a.operandFails = true) ∧ a.stdoutFails = false := by
  fun_cases writer_thread w
  all_goals simp only [writer_thread, reduceCtorEq, Op.call.injEq] at hop
  · subst hop
    simpa [WriterPc.Failing] using openOperand_fails ha
  · subst hop
    simpa [WriterPc.Failing] using readChunk_fails ha
  all_goals simp_all

theorem reader_call_fails {k : World → Answer → Option (World × ReaderPc)}
    (hop : reader_thread r = .call k) (ha : k x a = some (x', r')) :
    (r'.Failing ↔ r.Failing ∨ a.stdoutFails = true) ∧ a.operandFails = false := by
  fun_cases reader_thread r
  all_goals simp only [reader_thread, reduceCtorEq, Op.call.injEq] at hop
  subst hop
  simpa [ReaderPc.Failing] using writeChunk_fails ha

theorem writer_lock_fails (hop : writer_thread w = .lock w') : w'.Failing ↔ w.Failing := by
  fun_cases writer_thread w
  all_goals simp_all only [writer_thread, reduceCtorEq, Op.lock.injEq]
  all_goals subst hop
  all_goals simp [WriterPc.Failing]

theorem reader_lock_fails (hop : reader_thread r = .lock r') : r'.Failing ↔ r.Failing := by
  fun_cases reader_thread r
  all_goals simp only [reader_thread, reduceCtorEq, Op.lock.injEq] at hop
  all_goals subst hop
  all_goals simp [ReaderPc.Failing]

/-- A section of the writer records its own failure only. -/
theorem writer_leave_fails {k : Shared → Leave Shared Cond WriterPc}
    (hop : writer_thread w = .critical k) :
    (Faulted (k m).data (k m).next ↔ Faulted m w) ∧ (Broken (k m).data r ↔ Broken m r) := by
  fun_cases writer_thread w
  all_goals simp only [writer_thread, reduceCtorEq, Op.critical.injEq] at hop
  all_goals try simp_all
  all_goals subst hop
  · unfold putChunk
    split
    · simp [Faulted, Broken, WriterPc.Failing]
    · split <;> simp [Faulted, Broken, WriterPc.Failing]
  · cases hstop : m.stop <;> simp [Faulted, Broken, WriterPc.Failing, hstop]
  -- the failure moves from the program point into the history
  · next e ctx k =>
    constructor
    · exact iff_of_true (.inl ⟨_, mem_calls_fail.mpr (.inr rfl), rfl⟩) (.inr trivial)
    · apply or_congr_left
      simp [or_and_right, exists_or]
  · simp [Faulted, Broken, WriterPc.Failing]

theorem reader_leave_fails {k : Shared → Leave Shared Cond ReaderPc}
    (hop : reader_thread r = .critical k) :
    (Faulted (k m).data w ↔ Faulted m w) ∧ (Broken (k m).data (k m).next ↔ Broken m r) := by
  fun_cases reader_thread r
  all_goals simp only [reader_thread, reduceCtorEq, Op.critical.injEq] at hop
  all_goals subst hop
  · unfold getChunk
    split
    · simp [Faulted, Broken, ReaderPc.Failing]
    · split
      · simp [Faulted, Broken, ReaderPc.Failing]
      · split <;> simp [Faulted, Broken, ReaderPc.Failing]
  · constructor
    · apply or_congr_left
      simp [or_and_right, exists_or]
    · exact iff_of_true (.inl ⟨_, mem_calls_fail.mpr (.inr rfl), rfl⟩) (.inr trivial)

end failures

theorem step_fails {s s' : State} {e : Event Thread Answer} (h : Monitor.Step op s e s') :
    (Faulted s'.data (writerPc s') ↔ Faulted s.data (writerPc s) ∨ operandFails e = true) ∧
    (Broken s'.data (readerPc s') ↔ Broken s.data (readerPc s) ∨ stdoutFails e = true) := by
  cases h with
  | @call t a k x l hop hk =>
    cases t with
    | writer =>
      obtain ⟨hfail, hout⟩ := writer_call_fails hop hk
      simp only [Host.goto_data, writerPc_goto_writer, readerPc_goto_writer, operandFails,
        stdoutFails, hout, Bool.false_eq_true, or_false]
      exact ⟨(or_congr_right hfail).trans or_assoc.symm, Iff.rfl⟩
    | reader =>
      obtain ⟨hfail, hout⟩ := reader_call_fails hop hk
      simp only [Host.goto_data, writerPc_goto_reader, readerPc_goto_reader, operandFails,
        stdoutFails, hout, Bool.false_eq_true, or_false]
      exact ⟨Iff.rfl, (or_congr_right hfail).trans or_assoc.symm⟩
  | @lock t l hop _ _ =>
    simp only [operandFails, stdoutFails, Bool.false_eq_true, or_false]
    cases t with
    | writer =>
      simp only [Host.goto_data, writerPc_goto_writer, readerPc_goto_writer]
      exact ⟨or_congr_right (writer_lock_fails hop), Iff.rfl⟩
    | reader =>
      simp only [Host.goto_data, writerPc_goto_reader, readerPc_goto_reader]
      exact ⟨Iff.rfl, or_congr_right (reader_lock_fails hop)⟩
  | @leave t picks k z hop _ =>
    simp only [operandFails, stdoutFails, Bool.false_eq_true, or_false]
    cases t with
    | writer =>
      simp only [Host.goto_data, writerPc_goto_writer, readerPc_goto_writer]
      exact writer_leave_fails hop
    | reader =>
      simp only [Host.goto_data, writerPc_goto_reader, readerPc_goto_reader]
      exact reader_leave_fails hop
  | spurious _ =>
    simp only [operandFails, stdoutFails, Bool.false_eq_true, or_false]
    exact ⟨Iff.rfl, Iff.rfl⟩

/-- The failures of a run are those of its events. -/
theorem run_fails {args : Args} {s s' : State} {es : List (Event Thread Answer)}
    (h : (pcat2 args).Run s es s') :
    (Faulted s'.data (writerPc s') ↔
      Faulted s.data (writerPc s) ∨ ∃ e ∈ es, operandFails e = true) ∧
    (Broken s'.data (readerPc s') ↔
      Broken s.data (readerPc s) ∨ ∃ e ∈ es, stdoutFails e = true) := by
  induction h with
  | nil => simp
  | cons hstep _ ih =>
    obtain ⟨hfault, hbreak⟩ := step_fails hstep
    simp only [ih.1, ih.2, hfault, hbreak, List.mem_cons, exists_eq_or_imp, or_assoc, and_self]

end Pcat2
