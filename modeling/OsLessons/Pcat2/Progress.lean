import OsLessons.Pcat2.Threads

/-! # pcat2: progress and termination

  - `Good.not_lostWakeup`: nobody waits for a wake-up that cannot come.
  - `Good.progress`: until both threads have returned, one can get ahead.
  - `pays`: a weight that bounds the length of every run.
-/

namespace Pcat2

open Lts Monitor

/-! ### Waiting -/

/-- The thread has returned. -/
def Returned (s : State) : Thread → Prop
  | .writer => writerPc s = .exited
  | .reader => readerPc s = .exited

/-- A thread waits unsignalled while the other has returned or waits too. -/
def LostWakeup (s : State) : Prop :=
  ∃ t u, t ≠ u ∧ s.asleep t ≠ none ∧ (Returned s u ∨ s.asleep u ≠ none)

variable {args : Args} {s s' : State} {es : List (Event Thread Answer)}

theorem Good.writer_sleeps (h : Good args s) (hz : s.asleep .writer ≠ none) :
    s.data.full = true ∧ s.data.stop = false := by
  obtain ⟨c, hc⟩ := Option.ne_none_iff_exists'.mp hz
  exact (h.sleeps.writer c hc).2.2

theorem Good.reader_sleeps (h : Good args s) (hz : s.asleep .reader ≠ none) :
    s.data.full = false ∧ s.data.done = false ∧ s.data.stop = false := by
  obtain ⟨c, hc⟩ := Option.ne_none_iff_exists'.mp hz
  exact (h.sleeps.reader c hc).2.2

theorem Good.not_lostWakeup (h : Good args s) : ¬ LostWakeup s := by
  rintro ⟨t, u, hne, hsleep, hother⟩
  cases t with
  -- a sleeping writer sees a full slot that the reader would have to empty
  | writer =>
    obtain ⟨hfull, hstop⟩ := h.writer_sleeps hsleep
    cases u with
    | writer => exact hne rfl
    | reader =>
      rcases hother with hret | hz
      · rcases h.inv.reader_exit hret with hs | hs
        · rw [hstop] at hs
          cases hs
        · rw [hfull] at hs
          cases hs.1
      · have hempty := (h.reader_sleeps hz).1
        rw [hfull] at hempty
        cases hempty
  | reader =>
    obtain ⟨hempty, hdone, hstop⟩ := h.reader_sleeps hsleep
    cases u with
    | reader => exact hne rfl
    | writer =>
      rcases hother with hret | hz
      · rw [h.inv.done_iff.mpr hret] at hdone
        cases hdone
      · have hfull := (h.writer_sleeps hz).1
        rw [hempty] at hfull
        cases hfull

/-- Some answer of the environment gets a pending call ahead. -/
theorem exists_answer (t : Thread) {l : Pc t} {k : World → Answer → Option (World × Pc t)}
    (hop : op t l = .call k) (x : World) : ∃ a, a.idle = false ∧ (k x a).isSome := by
  cases t with
  | writer =>
    change writer_thread l = .call k at hop
    fun_cases writer_thread l
    all_goals simp only [writer_thread, reduceCtorEq, Op.call.injEq] at hop
    · subst hop
      exact ⟨.opened, rfl, rfl⟩
    · next c =>
      subst hop
      cases hleft : c.left with
      | nil => exact ⟨.eof, rfl, by simp [readChunk, hleft]⟩
      | cons b bs => exact ⟨.got 1, rfl, by simp [readChunk, hleft, BUFSZ]⟩
    all_goals simp_all
  | reader =>
    change reader_thread l = .call k at hop
    fun_cases reader_thread l
    all_goals simp only [reader_thread, reduceCtorEq, Op.call.injEq] at hop
    subst hop
    exact ⟨.wrote 1, rfl, by simp [writeChunk]⟩

theorem writer_exits {w : WriterPc} (h : writer_thread w = .exit) : w = .exited := by
  fun_cases writer_thread w
  all_goals simp_all [writer_thread]

theorem reader_exits {r : ReaderPc} (h : reader_thread r = .exit) : r = .exited := by
  fun_cases reader_thread r
  all_goals simp_all [reader_thread]

/-- Until both threads have returned, one of them can get ahead. -/
theorem Good.progress (h : Good args s) (hexit : ¬ Exited s) :
    ∃ e s', e.effective Answer.idle = true ∧ Monitor.Step op s e s' := by
  by_contra hnone
  have hquiet : ∀ e, Event.effective Answer.idle e = true → Monitor.next op s e = none := by
    intro e he
    cases hn : Monitor.next op s e with
    | none => rfl
    | some s' => exact absurd ⟨e, s', he, step_of_next hn⟩ hnone
  have hstuck := stuck_of_quiet h.owned (fun t k hop => exists_answer t hop s.world) hquiet
  have hret : ∀ t, op t (s.thread t) = .exit → Returned s t := by
    rintro (_ | _) hop
    · exact writer_exits hop
    · exact reader_exits hop
  apply h.not_lostWakeup
  -- both are blocked: one of them waits for the other, who cannot come
  rcases hstuck .writer with hw | ⟨c, hw⟩
  · rcases hstuck .reader with hr | ⟨c', hr⟩
    · exact absurd ⟨hret .writer hw, hret .reader hr⟩ hexit
    · exact ⟨.reader, .writer, by decide, by simp [hr], .inl (hret _ hw)⟩
  · rcases hstuck .reader with hr | ⟨c', hr⟩
    · exact ⟨.writer, .reader, by decide, by simp [hw], .inl (hret _ hr)⟩
    · exact ⟨.writer, .reader, by decide, by simp [hw], .inr (by simp [hr])⟩

/-! ### Termination -/

/-- What is still to be done for the operands `fs`. -/
def operandsWeight (fs : List Operand) : ℕ :=
  6 + (fs.map fun f => 20 * f.content.length + 20).sum

/-- What is left to do once a file has been copied. -/
def restWeight : Option (List Operand) → ℕ
  | none => 6
  | some fs => operandsWeight fs + 8

def readWeight (c : Cursor) : ℕ := 20 * c.left.length + restWeight c.rest + 11

def afterFailWeight : Option Cursor → ℕ
  | none => 6
  | some c => restWeight c.rest

def writerWeight : WriterPc → ℕ
  | .openNext fs => operandsWeight fs
  | .read c => readWeight c
  | .put c tmp => readWeight c + tmp.length + 17
  | .putLocked c tmp => readWeight c + tmp.length + 16
  | .returned c => restWeight c.rest
  | .check fs => operandsWeight fs + 7
  | .fail _ _ k => afterFailWeight k + 10
  | .failLocked _ _ k => afterFailWeight k + 9
  | .finish => 6
  | .setDone => 5
  | .exited => 0

def readerWeight : ReaderPc → ℕ
  | .get => 2
  | .getLocked => 1
  | .write left => left.length + 11
  | .fail _ => 10
  | .failLocked _ => 9
  | .exited => 0

def pcWeight : ∀ t, Pc t → ℕ
  | .writer => writerWeight
  | .reader => readerWeight

/-- The slot has to be taken and written. -/
def slotWeight (m : Shared) : ℕ := if m.full then m.buf.length + 13 else 0

theorem operandsWeight_cons (f : Operand) (fs : List Operand) :
    operandsWeight (f :: fs) = 20 * f.content.length + 20 + operandsWeight fs := by
  simp only [operandsWeight, List.map_cons, List.sum_cons]
  omega

section pays
variable {x x' : World} {a : Answer}

theorem openOperand_pays {f : Operand} {fs : List Operand} {w' : WriterPc}
    (h : openOperand f fs x a = some (x', w')) :
    writerWeight w' + (if a.idle then 0 else 1) ≤ writerWeight (.openNext (f :: fs)) := by
  have hcons := operandsWeight_cons f fs
  have hmin : 6 ≤ operandsWeight fs := Nat.le_add_right _ _
  unfold openOperand at h
  split at h <;> cases h
  · simp only [writerWeight, readWeight, restWeight, Answer.idle, Bool.false_eq_true, ↓reduceIte]
    omega
  · simp only [writerWeight, afterFailWeight, Answer.idle, Bool.false_eq_true, ↓reduceIte]
    omega

theorem readChunk_pays {c : Cursor} {w' : WriterPc} (h : readChunk c x a = some (x', w')) :
    writerWeight w' + (if a.idle then 0 else 1) ≤ writerWeight (.read c) := by
  unfold readChunk at h
  split at h
  · split at h <;> cases h
    -- every byte that is read has paid for its way through the slot
    simp only [writerWeight, readWeight, Answer.idle, Bool.false_eq_true, ↓reduceIte,
      List.length_drop, List.length_take]
    omega
  · split at h <;> cases h
    simp only [writerWeight, readWeight, Answer.idle, Bool.false_eq_true, ↓reduceIte]
    omega
  · split at h
    · next hintr =>
      cases h
      simp [Answer.idle, hintr]
    · next hintr =>
      cases h
      simp only [writerWeight, readWeight, afterFailWeight, Answer.idle, hintr, decide_false,
        Bool.false_eq_true, ↓reduceIte]
      omega
  · cases h

theorem writeChunk_pays {left : Bytes} {r' : ReaderPc}
    (h : writeChunk left x a = some (x', r')) :
    readerWeight r' + (if a.idle then 0 else 1) ≤ readerWeight (.write left) := by
  unfold writeChunk at h
  split at h
  · split at h <;> cases h
    simp only [readerWeight, Answer.idle, Bool.false_eq_true, ↓reduceIte, List.length_drop]
    omega
  · split at h
    · next hintr =>
      cases h
      simp [Answer.idle, hintr]
    · next hintr =>
      cases h
      simp only [readerWeight, Answer.idle, hintr, decide_false, Bool.false_eq_true, ↓reduceIte]
      omega
  · cases h

theorem putChunk_pays (c : Cursor) (tmp : Bytes) (m : Shared) :
    slotWeight (putChunk c tmp m).data + writerWeight (putChunk c tmp m).next +
        2 * ((putChunk c tmp m).wakes.map (Wake.most 2)).sum <
      slotWeight m + writerWeight (.putLocked c tmp) +
        if (putChunk c tmp m).sleep.isSome then 2 else 0 := by
  unfold putChunk
  split
  · simp [writerWeight]
    omega
  · split
    · simp [writerWeight, readWeight]
      omega
    · simp [writerWeight, slotWeight, Wake.most]
      omega

theorem getChunk_pays (m : Shared) :
    slotWeight (getChunk m).data + readerWeight (getChunk m).next +
        2 * ((getChunk m).wakes.map (Wake.most 2)).sum <
      slotWeight m + readerWeight .getLocked +
        if (getChunk m).sleep.isSome then 2 else 0 := by
  unfold getChunk
  split
  · simp [readerWeight]
  · next hwait =>
    split
    · simp [readerWeight]
    · next hstop =>
      split
      · simp [readerWeight]
      -- the chunk that is taken has paid for being written
      · next hfin =>
        have hfull : m.full = true := by
          simp only [Bool.and_eq_true, Bool.not_eq_true'] at hwait hstop hfin
          grind
        simp [readerWeight, slotWeight, Wake.most, hfull]

theorem writer_pays (w : WriterPc) :
    (writer_thread w).Pays 2 Answer.idle slotWeight (fun _ => 0) writerWeight w := by
  fun_cases writer_thread w
  · simp [Op.Pays, writerWeight, operandsWeight]
  · intro x a x' w' h
    exact openOperand_pays h
  · intro x a x' w' h
    exact readChunk_pays h
  · simp [Op.Pays, writerWeight]
  · intro m
    exact putChunk_pays _ _ m
  · next c hrest => simp [Op.Pays, hrest, writerWeight, restWeight]
  · next c fs hrest => simp [Op.Pays, hrest, writerWeight, restWeight]
  · intro m
    cases hstop : m.stop <;> simp [hstop, writerWeight]
  · simp [Op.Pays, writerWeight]
  · next e ctx k =>
    intro m
    cases k with
    | none => simp [slotWeight, WriterPc.afterFail, writerWeight, afterFailWeight, Wake.most]
    | some c =>
      simp [slotWeight, WriterPc.afterFail, writerWeight, afterFailWeight, Wake.most]
      omega
  · simp [Op.Pays, writerWeight]
  · intro m
    simp [slotWeight, writerWeight, Wake.most]
  · trivial

theorem reader_pays (r : ReaderPc) :
    (reader_thread r).Pays 2 Answer.idle slotWeight (fun _ => 0) readerWeight r := by
  fun_cases reader_thread r
  · simp [Op.Pays, readerWeight]
  · intro m
    exact getChunk_pays m
  · simp [Op.Pays, readerWeight]
  · intro x a x' r' h
    exact writeChunk_pays h
  · simp [Op.Pays, readerWeight]
  · intro m
    simp [slotWeight, readerWeight, Wake.most]
  · trivial

end pays

theorem pays (t : Thread) (l : Pc t) :
    (op t l).Pays (Fintype.card Thread) Answer.idle slotWeight (fun _ => 0) (pcWeight t) l := by
  cases t with
  | writer => exact writer_pays l
  | reader => exact reader_pays l

/-- How many effective events a run can have without spurious wake-ups. -/
def effort (args : Args) : ℕ := weight slotWeight (fun _ => 0) pcWeight (init args)

/-- The effective events of a run are bounded. -/
theorem effective_le {args : Args} {s : State} {es : List (Event Thread Answer)}
    (hrun : (pcat2 args).Run (init args) es s) :
    es.countP (Event.effective Answer.idle) ≤ effort args + 2 * es.countP Event.isSpurious := by
  have hbound := Run.effective_le disciplined pays hrun (good_init args).owned
  unfold effort
  omega

end Pcat2
