import OsLessons.Pcat2.Model

/-! # pcat2: what holds at every program point

  `Inv` is stated over the parts of a state: the monitor, the two program
  points and the world. A step of one thread changes its own program point
  and either the world (a system call) or the monitor (a critical section),
  so there is one preservation lemma for each thread and kind of step.
-/

namespace Pcat2

open Lts Monitor

/-! ### Assertions -/

/-- The concatenation of the operands. -/
def contents (fs : List Operand) : Bytes := fs.flatMap Operand.content

@[simp] theorem contents_nil : contents [] = [] := rfl
theorem contents_append (fs gs : List Operand) :
    contents (fs ++ gs) = contents fs ++ contents gs := List.flatMap_append ..
@[simp] theorem contents_cons (f : Operand) (fs : List Operand) :
    contents (f :: fs) = f.content ++ contents fs := List.flatMap_cons ..

/-- Standard input counts as one operand of that name. -/
def Args.operands : Args → List Operand
  | .stdin content => [⟨"stdin", content⟩]
  | .files fs => fs

variable (args : Args)

/-- The operands before `fs` have been read, and nothing else. -/
def Through (fs : List Operand) (input : Bytes) : Prop :=
  ∃ before, args.operands = before ++ fs ∧ input = contents before

/-- The operands before `c` have been read, and `c` up to what is left of it. -/
def At (c : Cursor) (input : Bytes) : Prop :=
  ∃ before pre, args.operands = before ++ ⟨c.name, pre ++ c.left⟩ :: c.rest.getD [] ∧
    input = contents before ++ pre

/-- The operands before one of name `ctx` have been read, and a part of that one. -/
def FaultAt (ctx : String) (input : Bytes) : Prop :=
  ∃ before f after pre, args.operands = before ++ f :: after ∧ f.name = ctx ∧
    pre <+: f.content ∧ input = contents before ++ pre

/-- What the writer knows at each program point. -/
def WriterAt (stop : Bool) (input : Bytes) : WriterPc → Prop
  | .openNext fs => Through args fs input
  | .read c => At args c input
  | .put c tmp | .putLocked c tmp => At args c input ∧ tmp.length ≤ BUFSZ
  | .returned c => At args c input ∧ (c.left = [] ∨ stop = true)
  | .check fs => Through args fs input ∨ stop = true
  | .fail _ ctx k | .failLocked _ ctx k => FaultAt args ctx input ∧ ∀ c ∈ k, At args c input
  | .finish => stop = true
  | .setDone | .exited => input = contents args.operands ∨ stop = true

/-- The bytes in the slot. -/
def slot (m : Mon) : Bytes := if m.full then m.buf else []

/-- The bytes that the writer has read and not yet put into the slot. -/
def WriterPc.inHand : WriterPc → Bytes
  | .put _ tmp | .putLocked _ tmp => tmp
  | _ => []

/-- The bytes that the reader has taken and not yet written. -/
def ReaderPc.pending : ReaderPc → Bytes
  | .write left => left
  | _ => []

/-- The writer has not recorded a failure and may still do so. -/
def WriterPc.Live : WriterPc → Prop
  | .openNext _ | .read _ | .put _ _ | .putLocked _ _ | .fail _ _ _ | .failLocked _ _ _ => True
  | _ => False

def WriterPc.Failing : WriterPc → Prop
  | .fail _ _ _ | .failLocked _ _ _ => True
  | _ => False

def ReaderPc.Failing : ReaderPc → Prop
  | .fail _ | .failLocked _ => True
  | _ => False

/-- A `write` has failed; what the reader had taken is lost. -/
def Broken (m : Shared) (r : ReaderPc) : Prop :=
  (∃ f ∈ m.calls, f.caller = .reader) ∨ r.Failing

/-- The main invariant. -/
structure Inv (m : Shared) (w : WriterPc) (r : ReaderPc) (x : World) : Prop where
  writer_at : WriterAt args m.stop x.input w
  input : x.input <+: contents args.operands
  output : x.output <+: x.input
  /-- no byte is lost or duplicated on its way, unless a `write` fails -/
  flow : ¬ Broken m r → x.output ++ r.pending ++ slot m.toMon ++ w.inHand = x.input
  buf : m.buf.length ≤ BUFSZ
  writer_faults : ∀ f ∈ m.calls, f.caller = .writer → FaultAt args f.err_ctx x.input
  reader_faults : ∀ f ∈ m.calls, f.caller = .reader → f.err_ctx = "stdout"
  writer_live : w.Live → ∀ f ∈ m.calls, f.caller ≠ .writer
  reader_live : r ≠ .exited → ∀ f ∈ m.calls, f.caller ≠ .reader
  stop_iff : m.stop = true ↔ m.calls ≠ []
  first : ∀ f ∈ m.calls.head?, m.err_no = f.err_no ∧ m.err_ctx = some f.err_ctx
  done_iff : m.done = true ↔ w = .exited
  reader_exit : r = .exited → m.stop = true ∨ (m.full = false ∧ m.done = true)

/-! ### Positions -/

section positions
variable {args : Args} {input : Bytes}

theorem Through.read {f : Operand} {fs : List Operand} (h : Through args (f :: fs) input) :
    At args ⟨f.name, f.content, some fs⟩ input := by
  obtain ⟨before, hops, rfl⟩ := h
  exact ⟨before, [], by simpa using hops, by simp⟩

theorem Through.fault {f : Operand} {fs : List Operand} (h : Through args (f :: fs) input) :
    FaultAt args f.name input := by
  obtain ⟨before, hops, rfl⟩ := h
  exact ⟨before, f, fs, [], hops, rfl, List.nil_prefix, by simp⟩

theorem Through.complete (h : Through args [] input) : input = contents args.operands := by
  obtain ⟨before, hops, rfl⟩ := h
  rw [hops, List.append_nil]

theorem At.fault {c : Cursor} (h : At args c input) : FaultAt args c.name input := by
  obtain ⟨before, pre, hops, rfl⟩ := h
  exact ⟨before, _, _, pre, hops, rfl, List.prefix_append _ _, rfl⟩

/-- A chunk is read. -/
theorem At.got {c : Cursor} (h : At args c input) (n : ℕ) :
    At args { c with left := c.left.drop n } (input ++ c.left.take n) := by
  obtain ⟨before, pre, hops, rfl⟩ := h
  exact ⟨before, pre ++ c.left.take n, by simpa using hops, by simp⟩

theorem At.input_isPart {c : Cursor} (h : At args c input) :
    input <+: contents args.operands := by
  obtain ⟨before, pre, hops, rfl⟩ := h
  rw [hops, contents_append, contents_cons]
  exact ⟨c.left ++ contents (c.rest.getD []), by simp⟩

/-- At the end of a file the operands up to it have been read. -/
theorem At.through {c : Cursor} (h : At args c input) (hleft : c.left = []) :
    Through args (c.rest.getD []) input := by
  obtain ⟨before, pre, hops, rfl⟩ := h
  refine ⟨before ++ [⟨c.name, pre⟩], ?_, by simp [contents_append]⟩
  simpa [hleft] using hops

theorem WriterAt.stopped {w : WriterPc} {b b' : Bool} (h : WriterAt args b input w)
    (hmono : b = true → b' = true) : WriterAt args b' input w := by
  cases w with
  | returned c => exact ⟨h.1, h.2.imp_right hmono⟩
  | check fs => exact h.imp_right hmono
  | finish => exact hmono h
  | setDone => exact h.imp_right hmono
  | exited => exact h.imp_right hmono
  | _ => exact h

end positions

/-! ### `mon_fail_locked` -/

section fails
variable {m : Shared} {f : Fault}

@[simp] theorem mon_fail_locked_stop : (mon_fail_locked m f).stop = true := by
  unfold mon_fail_locked
  split
  · assumption
  · rfl

@[simp] theorem mon_fail_locked_calls : (mon_fail_locked m f).calls = m.calls ++ [f] := by
  unfold mon_fail_locked
  split <;> rfl

theorem mem_calls_fail {g : Fault} : g ∈ (mon_fail_locked m f).calls ↔ g ∈ m.calls ∨ g = f := by
  simp

@[simp] theorem mon_fail_locked_full : (mon_fail_locked m f).full = m.full := by
  unfold mon_fail_locked
  split <;> rfl

@[simp] theorem mon_fail_locked_done : (mon_fail_locked m f).done = m.done := by
  unfold mon_fail_locked
  split <;> rfl

@[simp] theorem mon_fail_locked_buf : (mon_fail_locked m f).buf = m.buf := by
  unfold mon_fail_locked
  split <;> rfl

/-- The first failure stays the one that is recorded. -/
theorem mon_fail_locked_first (hstop : m.stop = true ↔ m.calls ≠ [])
    (hfirst : ∀ g ∈ m.calls.head?, m.err_no = g.err_no ∧ m.err_ctx = some g.err_ctx) :
    ∀ g ∈ (mon_fail_locked m f).calls.head?, (mon_fail_locked m f).err_no = g.err_no ∧
      (mon_fail_locked m f).err_ctx = some g.err_ctx := by
  intro g hg
  unfold mon_fail_locked at hg ⊢
  -- with a failure on record `stop` is set and nothing is overwritten
  cases hcalls : m.calls with
  | nil =>
    have hgo : m.stop = false := by
      simpa [hcalls] using hstop
    simp [hgo, hcalls] at hg
    subst hg
    simp [hgo]
  | cons g' gs =>
    have hstopped : m.stop = true := hstop.mpr (by simp [hcalls])
    simp [hstopped, hcalls] at hg
    subst hg
    simpa [hstopped, hcalls] using hfirst

@[simp] theorem slot_mon_fail_locked : slot (mon_fail_locked m f).toMon = slot m.toMon := by
  simp [slot]

end fails

/-! ### Steps of the writer -/

section writer
variable {args : Args} {m : Shared} {w w' : WriterPc} {r : ReaderPc} {x x' : World}

/-- While the writer copies, only the reader can have stopped it. -/
theorem Inv.broken_of_stop (h : Inv args m w r x) (hw : w.Live) (hstop : m.stop = true) :
    Broken m r := by
  obtain ⟨f, hf⟩ := List.exists_mem_of_ne_nil _ (h.stop_iff.mp hstop)
  refine .inl ⟨f, hf, ?_⟩
  have hnot := h.writer_live hw f hf
  cases hc : f.caller with
  | writer => exact absurd hc hnot
  | reader => rfl

theorem Inv.openOperand {f : Operand} {fs : List Operand} {a : Answer}
    (h : Inv args m (.openNext (f :: fs)) r x) (ha : openOperand f fs x a = some (x', w')) :
    Inv args m w' r x' := by
  have hat : Through args (f :: fs) x.input := h.writer_at
  unfold Pcat2.openOperand at ha
  split at ha
  · cases ha
    exact { h with
      writer_at := hat.read
      writer_live := fun _ => h.writer_live trivial
      done_iff := by simpa using h.done_iff }
  · cases ha
    exact { h with
      writer_at := ⟨hat.fault, by simp⟩
      writer_live := fun _ => h.writer_live trivial
      done_iff := by simpa using h.done_iff }
  · cases ha

theorem Inv.readChunk {c : Cursor} {a : Answer} (h : Inv args m (.read c) r x)
    (ha : readChunk c x a = some (x', w')) : Inv args m w' r x' := by
  have hat : At args c x.input := h.writer_at
  unfold Pcat2.readChunk at ha
  split at ha
  · next n =>
    split at ha
    · next hn =>
      cases ha
      -- the chunk goes from the file into the writer's hand
      exact { h with
        writer_at := ⟨hat.got n, by simpa using Or.inl hn.2.1⟩
        input := (hat.got n).input_isPart
        output := h.output.trans (List.prefix_append _ _)
        flow := by
          intro hb
          have hflow := h.flow hb
          simp only [WriterPc.inHand, List.append_nil] at hflow ⊢
          rw [hflow]
        writer_faults := fun f hf hc => absurd hc (h.writer_live trivial f hf)
        writer_live := fun _ => h.writer_live trivial
        done_iff := by simpa using h.done_iff }
    · cases ha
  · split at ha
    · next hleft =>
      -- end of file
      cases ha
      exact { h with
        writer_at := ⟨hat, .inl hleft⟩
        writer_live := fun hl => hl.elim
        done_iff := by simpa using h.done_iff }
    · cases ha
  · split at ha
    -- `EINTR`: the call is made again
    · cases ha
      exact h
    · cases ha
      exact { h with
        writer_at := ⟨hat.fault, by simpa using hat⟩
        writer_live := fun _ => h.writer_live trivial
        done_iff := by simpa using h.done_iff }
  · cases ha

/-- A system call of the writer. -/
theorem Inv.writer_call {k : World → Answer → Option (World × WriterPc)} {a : Answer}
    (h : Inv args m w r x) (hop : writer_thread w = .call k) (ha : k x a = some (x', w')) :
    Inv args m w' r x' := by
  fun_cases writer_thread w
  all_goals simp only [writer_thread, reduceCtorEq, Op.call.injEq] at hop
  · subst hop
    exact h.openOperand ha
  · subst hop
    exact h.readChunk ha
  all_goals simp_all

/-- The writer gets the mutex. -/
theorem Inv.writer_lock (h : Inv args m w r x) (hop : writer_thread w = .lock w') :
    Inv args m w' r x := by
  have hat := h.writer_at
  have hdone := h.done_iff
  fun_cases writer_thread w
  all_goals simp only [writer_thread, reduceCtorEq, Op.lock.injEq] at hop
  -- the loop over the operands is over
  · subst hop
    exact { h with
      writer_at := .inl (Through.complete hat)
      writer_live := fun hl => hl.elim
      done_iff := by simpa using hdone }
  · subst hop
    exact { h with
      writer_at := hat
      writer_live := fun _ => h.writer_live trivial
      done_iff := by simpa using hdone }
  -- standard input has been copied
  · next c hrest =>
    rw [hrest] at hop
    cases hop
    exact { h with
      writer_at := by
        apply hat.2.imp_left
        intro hleft
        have hthrough := hat.1.through hleft
        rw [hrest] at hthrough
        exact hthrough.complete
      writer_live := fun hl => hl.elim
      done_iff := by simpa using hdone }
  -- an operand has been copied
  · next c fs hrest =>
    rw [hrest] at hop
    cases hop
    exact { h with
      writer_at := by
        apply hat.2.imp_left
        intro hleft
        have hthrough := hat.1.through hleft
        rwa [hrest] at hthrough
      writer_live := fun hl => hl.elim
      done_iff := by simpa using hdone }
  · subst hop
    exact { h with
      writer_at := hat
      writer_live := fun _ => h.writer_live trivial
      done_iff := by simpa using hdone }
  · subst hop
    exact { h with
      writer_at := .inr hat
      writer_live := fun hl => hl.elim
      done_iff := by simpa using hdone }

theorem Inv.putChunk {c : Cursor} {tmp : Bytes} (h : Inv args m (.putLocked c tmp) r x) :
    Inv args (putChunk c tmp m).data (putChunk c tmp m).next r x := by
  have hat : At args c x.input ∧ tmp.length ≤ BUFSZ := h.writer_at
  have hdone := h.done_iff
  unfold Pcat2.putChunk
  split
  -- the writer waits with the chunk in hand
  · exact { h with
      writer_at := hat
      writer_live := fun _ => h.writer_live trivial
      done_iff := by simpa using hdone }
  · next hwait =>
    split
    -- only a failed `write` can have stopped the writer here
    · next hstop =>
      exact { h with
        writer_at := ⟨hat.1, .inr hstop⟩
        flow := fun hb => absurd (h.broken_of_stop trivial hstop) hb
        writer_live := fun hl => hl.elim
        done_iff := by simpa using hdone }
    -- the chunk goes from the writer's hand into the empty slot
    · next hstop =>
      have hempty : m.full = false := by
        simpa [hstop] using hwait
      exact { h with
        writer_at := hat.1
        flow := by
          intro hb
          have hflow := h.flow hb
          simpa [slot, hempty, WriterPc.inHand] using hflow
        buf := hat.2
        writer_live := fun _ => h.writer_live trivial
        done_iff := by simpa using hdone
        reader_exit := by
          intro hr
          have hfin := h.reader_exit hr
          simp_all }

theorem Inv.check {fs : List Operand} (h : Inv args m (.check fs) r x) :
    Inv args m (if m.stop then .finish else .openNext fs) r x := by
  have hat : Through args fs x.input ∨ m.stop = true := h.writer_at
  have hdone := h.done_iff
  split
  · next hstop =>
    exact { h with
      writer_at := hstop
      writer_live := fun hl => hl.elim
      done_iff := by simpa using hdone }
  -- without `stop` no failure has been recorded, so the writer is live again
  · next hstop =>
    have hcalls : m.calls = [] := by
      by_contra hne
      exact hstop (h.stop_iff.mpr hne)
    exact { h with
      writer_at := hat.resolve_right hstop
      writer_live := fun _ f hf => by simp [hcalls] at hf
      done_iff := by simpa using hdone }

theorem Inv.writer_fail {e : ℕ} {ctx : String} {k : Option Cursor}
    (h : Inv args m (.failLocked e ctx k) r x) :
    Inv args (mon_fail_locked m ⟨.writer, e, ctx⟩) (.afterFail k) r x := by
  have hat : FaultAt args ctx x.input ∧ ∀ c ∈ k, At args c x.input := h.writer_at
  have hdone := h.done_iff
  exact {
    writer_at := by
      cases k with
      | none => simp [WriterPc.afterFail, WriterAt]
      | some c => exact ⟨hat.2 c rfl, .inr (by simp)⟩
    input := h.input
    output := h.output
    flow := by
      intro hb
      have hflow := h.flow fun hb' => hb (hb'.imp_left fun ⟨f, hf, hc⟩ => ⟨f, by simp [hf], hc⟩)
      cases k <;> simpa [WriterPc.afterFail, WriterPc.inHand] using hflow
    buf := by simpa using h.buf
    writer_faults := by
      intro f hf hc
      rcases mem_calls_fail.mp hf with hold | rfl
      · exact h.writer_faults f hold hc
      · exact hat.1
    reader_faults := by
      intro f hf hc
      rcases mem_calls_fail.mp hf with hold | rfl
      · exact h.reader_faults f hold hc
      · cases hc
    writer_live := fun hl => by cases k <;> exact hl.elim
    reader_live := by
      intro hr f hf
      rcases mem_calls_fail.mp hf with hold | rfl
      · exact h.reader_live hr f hold
      · simp
    stop_iff := by simp
    first := mon_fail_locked_first h.stop_iff h.first
    done_iff := by cases k <;> simpa [WriterPc.afterFail] using hdone
    reader_exit := fun _ => .inl (by simp) }

theorem Inv.setDone (h : Inv args m .setDone r x) :
    Inv args { m with done := true } .exited r x :=
  { h with
    writer_at := h.writer_at
    writer_live := fun hl => hl.elim
    done_iff := by simp
    reader_exit := fun hr => (h.reader_exit hr).imp_right fun hfin => ⟨hfin.1, rfl⟩ }

/-- A critical section of the writer. -/
theorem Inv.writer_leave {k : Shared → Leave Shared Cond WriterPc} (h : Inv args m w r x)
    (hop : writer_thread w = .critical k) : Inv args (k m).data (k m).next r x := by
  fun_cases writer_thread w
  all_goals simp only [writer_thread, reduceCtorEq, Op.critical.injEq] at hop
  all_goals try simp_all
  all_goals subst hop
  · exact h.putChunk
  · exact h.check
  · exact h.writer_fail
  · exact h.setDone

end writer

/-! ### Steps of the reader -/

section reader
variable {args : Args} {m : Shared} {w : WriterPc} {r r' : ReaderPc} {x x' : World}

/-- As long as the reader has not failed it has recorded no failure. -/
theorem Inv.not_broken (h : Inv args m w r x) (hr : r ≠ .exited) (hfail : ¬ r.Failing) :
    ¬ Broken m r := by
  rintro (⟨f, hf, hc⟩ | hf)
  · exact h.reader_live hr f hf hc
  · exact hfail hf

theorem Inv.writeChunk {left : Bytes} {a : Answer} (h : Inv args m w (.write left) x)
    (ha : writeChunk left x a = some (x', r')) : Inv args m w r' x' := by
  have hbroken := h.not_broken (by simp) id
  have hflow := h.flow hbroken
  have hlive := h.reader_live (by simp)
  unfold Pcat2.writeChunk at ha
  split at ha
  · next n =>
    split at ha
    -- the first `n` of the pending bytes reach standard output
    · cases ha
      exact { h with
        output := by
          rw [← hflow]
          refine ⟨left.drop n ++ slot m.toMon ++ w.inHand, ?_⟩
          simp only [ReaderPc.pending, List.append_assoc]
          rw [← List.append_assoc (left.take n), List.take_append_drop]
        flow := by
          intro _
          rw [← hflow]
          simp only [ReaderPc.pending, List.append_assoc]
          rw [← List.append_assoc (left.take n), List.take_append_drop]
        reader_live := fun _ => hlive
        reader_exit := fun hr => by cases hr }
    · cases ha
  · split at ha
    · cases ha
      exact h
    -- from here on the bytes that are pending are lost
    · cases ha
      exact { h with
        flow := fun hb => absurd (Or.inr trivial) hb
        reader_live := fun _ => hlive
        reader_exit := fun hr => by cases hr }
  · cases ha

/-- A system call of the reader. -/
theorem Inv.reader_call {k : World → Answer → Option (World × ReaderPc)} {a : Answer}
    (h : Inv args m w r x) (hop : reader_thread r = .call k) (ha : k x a = some (x', r')) :
    Inv args m w r' x' := by
  fun_cases reader_thread r
  all_goals simp only [reader_thread, reduceCtorEq, Op.call.injEq] at hop
  subst hop
  exact h.writeChunk ha

/-- The reader gets the mutex. -/
theorem Inv.reader_lock (h : Inv args m w r x) (hop : reader_thread r = .lock r') :
    Inv args m w r' x := by
  fun_cases reader_thread r
  all_goals simp only [reader_thread, reduceCtorEq, Op.lock.injEq] at hop
  all_goals subst hop
  · exact { h with
      reader_live := fun _ => h.reader_live (by simp)
      reader_exit := fun hr => by cases hr }
  · exact { h with
      reader_live := fun _ => h.reader_live (by simp)
      reader_exit := fun hr => by cases hr }
  · exact { h with
      flow := fun hb => absurd (Or.inr trivial) hb
      reader_live := fun _ => h.reader_live (by simp)
      reader_exit := fun hr => by cases hr }

theorem Inv.getChunk (h : Inv args m w .getLocked x) :
    Inv args (getChunk m).data w (getChunk m).next x := by
  have hflow := h.flow (h.not_broken (by simp) id)
  have hlive := h.reader_live (by simp)
  unfold Pcat2.getChunk
  split
  · exact { h with
      reader_live := fun _ => hlive
      reader_exit := fun hr => by cases hr }
  · next hwait =>
    split
    -- `stop` is looked at before the slot
    · next hstop =>
      exact { h with
        reader_live := fun hr => absurd rfl hr
        reader_exit := fun _ => .inl hstop }
    · next hstop =>
      split
      -- end of input
      · next hfin =>
        exact { h with
          reader_live := fun hr => absurd rfl hr
          reader_exit := fun _ => .inr (by simpa using hfin) }
      · next hfin =>
        have hfull : m.full = true := by
          simp only [Bool.and_eq_true, Bool.not_eq_true'] at hwait hstop hfin
          grind
        -- the chunk goes from the slot into the reader's hand
        exact { h with
          flow := by
            intro _
            rw [← hflow]
            simp [slot, hfull, ReaderPc.pending]
          reader_live := fun _ => hlive
          reader_exit := fun hr => by cases hr }

theorem Inv.reader_fail {e : ℕ} (h : Inv args m w (.failLocked e) x) :
    Inv args (mon_fail_locked m ⟨.reader, e, "stdout"⟩) w .exited x where
  writer_at := h.writer_at.stopped (by simp)
  input := h.input
  output := h.output
  flow := fun hb => absurd (Or.inl ⟨_, mem_calls_fail.mpr (.inr rfl), rfl⟩) hb
  buf := by simpa using h.buf
  writer_faults := by
    intro f hf hc
    rcases mem_calls_fail.mp hf with hold | rfl
    · exact h.writer_faults f hold hc
    · cases hc
  reader_faults := by
    intro f hf hc
    rcases mem_calls_fail.mp hf with hold | rfl
    · exact h.reader_faults f hold hc
    · rfl
  writer_live := by
    intro hl f hf
    rcases mem_calls_fail.mp hf with hold | rfl
    · exact h.writer_live hl f hold
    · simp
  reader_live := fun hr => absurd rfl hr
  stop_iff := by simp
  first := mon_fail_locked_first h.stop_iff h.first
  done_iff := by simpa using h.done_iff
  reader_exit := fun _ => .inl (by simp)

/-- A critical section of the reader. -/
theorem Inv.reader_leave {k : Shared → Leave Shared Cond ReaderPc} (h : Inv args m w r x)
    (hop : reader_thread r = .critical k) : Inv args (k m).data w (k m).next x := by
  fun_cases reader_thread r
  all_goals simp only [reader_thread, reduceCtorEq, Op.critical.injEq] at hop
  all_goals subst hop
  · exact h.getChunk
  · exact h.reader_fail

end reader

end Pcat2
