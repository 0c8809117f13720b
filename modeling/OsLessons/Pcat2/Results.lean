import OsLessons.Pcat2.Failures
import OsLessons.Pcat2.Progress

/-! # pcat2: output, exit status and failures over whole runs

  - `pcat2_correct`: output and exit status of every run, no lost wake-up, and
    the end of the program.
  - `output_of_operand_failure`: what reaches standard output when an operand
    fails.
-/

namespace Pcat2

open Lts Monitor

section runs
variable {args : Args} {s : State} {es : List (Event Thread Answer)}

/-! ### Exit status -/

/-- Once both threads have returned, the recorded failures are those of the run. -/
theorem recorded_of_run (hrun : (pcat2 args).Run (init args) es s) (hexit : Exited s) :
    ((∃ f ∈ s.data.calls, f.caller = .writer) ↔ ∃ e ∈ es, operandFails e = true) ∧
    ((∃ f ∈ s.data.calls, f.caller = .reader) ↔ ∃ e ∈ es, stdoutFails e = true) := by
  obtain ⟨hfault, hbreak⟩ := run_fails hrun
  obtain ⟨hw, hr⟩ := hexit
  have hstart : ¬ Faulted (init args).data (writerPc (init args)) := by
    rintro (⟨f, hf, -⟩ | hf)
    · cases hf
    · change (WriterPc.start args).Failing at hf
      cases args <;> exact hf
  have hget : ¬ Broken (init args).data (readerPc (init args)) := by
    rintro (⟨f, hf, -⟩ | hf)
    · cases hf
    · exact hf
  rw [hw, or_iff_right hstart] at hfault
  rw [hr, or_iff_right hget] at hbreak
  rw [← hfault, ← hbreak]
  simp [Faulted, Broken, WriterPc.Failing, ReaderPc.Failing]

/-- `mon_fail_locked` has been called if and only if a system call failed. -/
theorem calls_of_run (hrun : (pcat2 args).Run (init args) es s) (hexit : Exited s) :
    s.data.calls = [] ↔ ∀ e ∈ es, operandFails e = false ∧ stdoutFails e = false := by
  obtain ⟨hfault, hbreak⟩ := recorded_of_run hrun hexit
  constructor
  · intro hnil e he
    simp only [hnil, List.not_mem_nil, false_and, exists_false, false_iff, not_exists, not_and,
      Bool.not_eq_true] at hfault hbreak
    exact ⟨hfault e he, hbreak e he⟩
  · intro hnone
    rw [List.eq_nil_iff_forall_not_mem]
    intro f hf
    cases hc : f.caller with
    | writer =>
      obtain ⟨e, he, hfail⟩ := hfault.mp ⟨f, hf, hc⟩
      rw [(hnone e he).1] at hfail
      cases hfail
    | reader =>
      obtain ⟨e, he, hfail⟩ := hbreak.mp ⟨f, hf, hc⟩
      rw [(hnone e he).2] at hfail
      cases hfail

theorem main_eq_zero (m : Mon) : (main m).1 = 0 ↔ m.stop = false := by
  unfold main
  split <;> simp_all

/-- When both threads have returned without a failure, everything has been
    read and written. -/
theorem Good.complete (h : Good args s) (hexit : Exited s) (hstop : s.data.stop = false) :
    s.world.output = contents args.operands := by
  obtain ⟨hw, hr⟩ := hexit
  have hinv := h.inv
  rw [hw, hr] at hinv
  have hcalls : s.data.calls = [] := by
    by_contra hne
    rw [hinv.stop_iff.mpr hne] at hstop
    cases hstop
  -- the reader returns without `stop` only when the slot is empty
  have hempty : s.data.full = false := by
    rcases hinv.reader_exit rfl with hs | hs
    · rw [hs] at hstop
      cases hstop
    · exact hs.1
  -- the writer returns without `stop` only after its last operand
  have hread : s.world.input = contents args.operands := by
    rcases hinv.writer_at with hall | hs
    · exact hall
    · rw [hs] at hstop
      cases hstop
  have hflow := hinv.flow (by simp [Broken, hcalls, ReaderPc.Failing])
  rw [← hread, ← hflow]
  simp [ReaderPc.pending, WriterPc.inHand, slot, hempty]

/-- The failure that `main` reports is the first one recorded. -/
theorem Good.report (h : Good args s) {f : Fault} (hf : f ∈ s.data.calls.head?) :
    main s.data.toMon = (1, some (f.err_ctx, if f.err_no = 0 then EIO else f.err_no)) := by
  obtain ⟨hno, hctx⟩ := h.inv.first f hf
  have hstop : s.data.stop = true := by
    apply h.inv.stop_iff.mpr
    intro hnil
    rw [hnil] at hf
    cases hf
  simp [main, hstop, hno, hctx]

/-- **pcat2 is correct**: in every run, for every command line and whatever the
    system calls answer,

    - standard output holds the first bytes of what has been read, and that is
      a first part of the operands;
    - `main` returns `0` if and only if no system call failed, and then it has
      copied the operands;
    - it reports the failure that was recorded first;
    - no thread waits unsignalled while the other has returned or waits too;
    - until both have returned one can get ahead, and the number of events
      that get them ahead is bounded. -/
theorem pcat2_correct (hrun : (pcat2 args).Run (init args) es s) :
    (s.world.output <+: s.world.input ∧ s.world.input <+: contents args.operands) ∧
    (Exited s →
      ((main s.data.toMon).1 = 0 ↔ ∀ e ∈ es, operandFails e = false ∧ stdoutFails e = false)) ∧
    (Exited s → (main s.data.toMon).1 = 0 → s.world.output = contents args.operands) ∧
    (∀ f ∈ s.data.calls.head?,
      main s.data.toMon = (1, some (f.err_ctx, if f.err_no = 0 then EIO else f.err_no))) ∧
    ¬ LostWakeup s ∧
    (¬ Exited s → ∃ e s', e.effective Answer.idle = true ∧ (pcat2 args).step s e s') ∧
    es.countP (Event.effective Answer.idle) ≤ effort args + 2 * es.countP Event.isSpurious := by
  have hgood := run_good hrun (good_init args)
  refine ⟨⟨hgood.inv.output, hgood.inv.input⟩, ?_, ?_, ?_, hgood.not_lostWakeup, hgood.progress,
    effective_le hrun⟩
  · intro hexit
    rw [main_eq_zero, ← calls_of_run hrun hexit, ← Bool.not_eq_true, hgood.inv.stop_iff, not_not]
  · intro hexit hzero
    exact hgood.complete hexit ((main_eq_zero _).mp hzero)
  · intro f hf
    exact hgood.report hf

end runs

/-! ### Two runs -/

/-- One byte goes through the slot to a reader that has been waiting for it. -/
def oneByte : List (Event Thread Answer) :=
  [.lock .reader, .leave .reader [], .call .writer .opened, .call .writer (.got 1),
    .lock .writer, .leave .writer [.reader], .lock .reader, .leave .reader [],
    .call .reader (.writeError EINTR), .call .reader (.wrote 1), .lock .reader,
    .leave .reader [], .call .writer .eof, .lock .writer, .leave .writer [], .lock .writer,
    .leave .writer [], .lock .reader, .leave .reader []]

/-- A file of one byte is copied. -/
theorem pcat2_correct_byte : ∃ s, (pcat2 (.files [⟨"a", [7]⟩])).Run
      (init (.files [⟨"a", [7]⟩])) oneByte s ∧ Exited s ∧ (main s.data.toMon).1 = 0 ∧
    s.world.output = [7] := by
  have hrun : (replay op (init (.files [⟨"a", [7]⟩])) oneByte).any
      (fun s => decide (Exited s)) = true := by
    decide +kernel
  obtain ⟨s, hs, hexit⟩ := (Option.any_eq_true _ _).mp hrun
  have hexit : Exited s := of_decide_eq_true hexit
  have hreach : (pcat2 (.files [⟨"a", [7]⟩])).Run _ oneByte s := Run.of_replay hs
  obtain ⟨-, hstatus, hall, -⟩ := pcat2_correct hreach
  have hzero : (main s.data.toMon).1 = 0 := (hstatus hexit).mpr (by decide)
  exact ⟨s, hreach, hexit, hzero, hall hexit hzero⟩

section operands
variable {args : Args} {s : State} {es : List (Event Thread Answer)}

/-! ### A failing operand -/

/-- **Output when an operand fails** and standard output does not: the
    operands before some operand `f` have been read and a part of `f`, the
    report names `f`, and what has been read is on standard output except for
    a chunk that the reader left in the slot when it saw `stop`. -/
theorem output_of_operand_failure (hrun : (pcat2 args).Run (init args) es s) (hexit : Exited s)
    (hout : ∀ e ∈ es, stdoutFails e = false) (hfail : ∃ e ∈ es, operandFails e = true) :
    ∃ before f after pre, args.operands = before ++ f :: after ∧ pre <+: f.content ∧
      s.world.input = contents before ++ pre ∧
      (∃ e, main s.data.toMon = (1, some (f.name, e))) ∧
      s.world.output ++ slot s.data.toMon = s.world.input ∧
      (slot s.data.toMon).length ≤ BUFSZ := by
  have hgood := run_good hrun (good_init args)
  obtain ⟨hfault, hbreak⟩ := recorded_of_run hrun hexit
  have hinv := hgood.inv
  rw [hexit.1, hexit.2] at hinv
  -- nothing but operands has failed
  have hwriter : ∀ f ∈ s.data.calls, f.caller = .writer := by
    intro f hf
    cases hc : f.caller with
    | writer => rfl
    | reader =>
      obtain ⟨e, he, hs⟩ := hbreak.mp ⟨f, hf, hc⟩
      rw [hout e he] at hs
      cases hs
  have hflow := hinv.flow (by
    rintro (⟨f, hf, hc⟩ | hf)
    · rw [hwriter f hf] at hc
      cases hc
    · exact hf)
  -- the first failure is the one that is reported
  obtain ⟨g, hg, -⟩ := hfault.mpr hfail
  obtain ⟨f₀, fs, hcalls⟩ := List.exists_cons_of_ne_nil (List.ne_nil_of_mem hg)
  have hmem : f₀ ∈ s.data.calls := by simp [hcalls]
  obtain ⟨before, f, after, pre, hops, hname, hpre, hinput⟩ :=
    hinv.writer_faults f₀ hmem (hwriter f₀ hmem)
  have hreport := hgood.report (f := f₀) (by simp [hcalls])
  refine ⟨before, f, after, pre, hops, hpre, hinput, ⟨_, hname ▸ hreport⟩, ?_, ?_⟩
  · simpa [ReaderPc.pending, WriterPc.inHand] using hflow
  · unfold slot
    split
    · exact hinv.buf
    · exact Nat.zero_le _

end operands

/-- The command line of two files. -/
def twoFiles : Args := .files [⟨"a", [7]⟩, ⟨"b", []⟩]

/-- The second file cannot be opened before the reader has run at all. -/
def lateReader : List (Event Thread Answer) :=
  [.call .writer .opened, .call .writer (.got 1), .lock .writer, .leave .writer [],
    .call .writer .eof, .lock .writer, .leave .writer [], .call .writer (.openError 2),
    .lock .writer, .leave .writer [], .lock .writer, .leave .writer [], .lock .reader,
    .leave .reader []]

/-- The reader leaves the byte of the first file in the slot. -/
theorem output_of_operand_failure_late : ∃ s,
    (pcat2 twoFiles).Run (init twoFiles) lateReader s ∧ Exited s ∧ s.world.input = [7] ∧
      s.world.output ++ slot s.data.toMon = [7] := by
  have hrun : (replay op (init twoFiles) lateReader).any
      (fun s => decide (Exited s ∧ s.world.input = [7])) = true := by
    decide +kernel
  obtain ⟨s, hs, hprop⟩ := (Option.any_eq_true _ _).mp hrun
  obtain ⟨hexit, hinput⟩ := of_decide_eq_true hprop
  have hreach : (pcat2 twoFiles).Run _ lateReader s := Run.of_replay hs
  obtain ⟨-, -, -, -, -, -, -, -, hflow, -⟩ :=
    output_of_operand_failure hreach hexit (by decide) (by decide)
  exact ⟨s, hreach, hexit, hinput, hflow.trans hinput⟩

/-- What has been read from the operands before a failure need not reach
    standard output. -/
theorem chunk_lost : ¬ ∀ (args : Args) (es : List (Event Thread Answer)) (s : State),
    (pcat2 args).Run (init args) es s → Exited s → (∀ e ∈ es, stdoutFails e = false) →
      (∃ e ∈ es, operandFails e = true) → s.world.output = s.world.input := by
  intro hall
  have hrun : (replay op (init twoFiles) lateReader).any
      (fun s => decide (Exited s ∧ s.world.input = [7] ∧ s.world.output = [])) = true := by
    decide +kernel
  obtain ⟨s, hs, hprop⟩ := (Option.any_eq_true _ _).mp hrun
  obtain ⟨hexit, hinput, houtput⟩ := of_decide_eq_true hprop
  have hlost := hall twoFiles lateReader s (Run.of_replay hs) hexit (by decide) (by decide)
  rw [hinput, houtput] at hlost
  cases hlost

end Pcat2
