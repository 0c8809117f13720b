import OsLessons.Counter.Command

/-! # The counter: what has been counted

  As long as the parent reads, what it has counted and what is in the pipe are
  together all that was ever written. It stops when nobody can write any more,
  and nobody ever will: `Total` is stable.
-/

namespace Counter.Command

open Lts Posix Reads

variable {α : Type} {cap : ℕ} {s s' : State α} {e : Event}

/-! ### What a step can do -/

inductive Step (cap : ℕ) (s : State α) : Event → State α → Prop where
  | piped {r} (old : s.parent = .pipe) (pipe : s.fds.pipe .readEnd .writeEnd = some r) :
      Step cap s (.parent true) { s with fds := r.2, parent := .fork r.1 }
  | forked {pfd} (old : s.parent = .fork pfd) : Step cap s (.parent true)
      { s with parent := .closeWriter pfd, child := .closeReader pfd, childFds := s.fds }
  | closedWriter {pfd} (old : s.parent = .closeWriter pfd) : Step cap s (.parent true)
      { s with
        fds := s.fds.close pfd.2
        parent := .read pfd { c := ⟨0, 0, 0⟩, in_word := false } }
  | read {pfd st n} (old : s.parent = .read pfd st) (pos : n ≠ 0) (size : n ≤ BUF_SIZE)
      (le : n ≤ s.pipe.length) : Step cap s (.read n)
      { s with pipe := s.pipe.drop n, parent := .read pfd (count_chunk st (s.pipe.take n)) }
  | atEnd {pfd st} (old : s.parent = .read pfd st) (empty : s.pipe = [])
      (eof : ¬ s.writerOpen) : Step cap s (.read 0) { s with parent := .closeReader pfd st.c }
  | closedReader {pfd c} (old : s.parent = .closeReader pfd c) : Step cap s (.parent true)
      { s with fds := s.fds.close pfd.1, parent := .waitpid c }
  | waited {c status} (old : s.parent = .waitpid c) (ended : s.child = .ended status) :
      Step cap s (.parent true) { s with parent := .print c status }
  | printed {c status} (old : s.parent = .print c status) : Step cap s (.parent true)
      { s with shown := some (report c), parent := .exited status.result }
  | parentFailed {rc} (old : s.parent.running = true) :
      Step cap s (.parent false) { s with parent := .exited rc }
  | childClosedReader {pfd} (old : s.child = .closeReader pfd) : Step cap s (.child true)
      { s with childFds := s.childFds.close pfd.1, child := .dup2 pfd }
  | duped {pfd t} (old : s.child = .dup2 pfd) (dup : s.childFds.dup2 pfd.2 1 = some t) :
      Step cap s (.child true) { s with childFds := t, child := .closeWriter pfd }
  | childClosedWriter {pfd} (old : s.child = .closeWriter pfd) : Step cap s (.child true)
      { s with childFds := s.childFds.close pfd.2, child := .exec }
  | execed (old : s.child = .exec) : Step cap s (.child true)
      { s with child := .command, holders := holds Desc.isWriteEnd s.childFds }
  | childFailed (old : s.child.starting = true) :
      Step cap s (.child false) { s with child := .ended (.exited 127) }
  | wrote {bs} (hold : 0 < s.holders) (reader : s.readerOpen)
      (room : s.pipe.length + bs.length ≤ cap) : Step cap s (.write bs)
      { s with pipe := s.pipe ++ bs, written := s.written ++ bs }
  | dup (hold : 0 < s.holders) : Step cap s .dup { s with holders := s.holders + 1 }
  | close (hold : 0 < s.holders) : Step cap s .close { s with holders := s.holders - 1 }
  | exited {status} (old : s.child = .command) :
      Step cap s (.exit status) { s with child := .ended status }

theorem step_of_parent (h : parent s = some s') : Step cap s (.parent true) s' := by
  unfold parent at h
  split at h
  · next old =>
    obtain ⟨r, hr, rfl⟩ := Option.map_eq_some_iff.mp h
    exact .piped old hr
  · next pfd old =>
    cases h
    exact .forked old
  · next pfd old =>
    cases h
    exact .closedWriter old
  · next pfd c old =>
    cases h
    exact .closedReader old
  · next c old =>
    split at h
    · next status ended =>
      cases h
      exact .waited old ended
    · cases h
  · next c status old =>
    cases h
    exact .printed old
  · cases h
  · cases h

theorem step_of_parentFails (h : parentFails s = some s') : Step cap s (.parent false) s' := by
  unfold parentFails at h
  split at h
  · cases h
  · next old =>
    cases h
    exact .parentFailed (by rw [old]; rfl)
  · next hexited _ =>
    cases h
    refine .parentFailed ?_
    cases hpc : s.parent with
    | exited rc => exact absurd hpc (hexited rc)
    | _ => rfl

theorem step_of_parentRead {n : ℕ} (h : parentRead s n = some s') : Step cap s (.read n) s' := by
  unfold parentRead at h
  split at h
  · next pfd st old =>
    split_ifs at h with hfd hn hend hle
    · cases h
      rw [hn]
      exact .atEnd old hend.1 hend.2
    · cases h
      exact .read old hn hle.1 hle.2
  · cases h

theorem step_of_child (h : child s = some s') : Step cap s (.child true) s' := by
  unfold child at h
  split at h
  · next pfd old =>
    cases h
    exact .childClosedReader old
  · next pfd old =>
    obtain ⟨t, ht, rfl⟩ := Option.map_eq_some_iff.mp h
    exact .duped old ht
  · next pfd old =>
    cases h
    exact .childClosedWriter old
  · next old =>
    cases h
    exact .execed old
  · cases h
  · cases h
  · cases h

theorem step_of_next (h : next cap s e = some s') : Step cap s e s' := by
  cases e with
  | parent ok =>
    cases ok with
    | true => exact step_of_parent h
    | false => exact step_of_parentFails h
  | child ok =>
    cases ok with
    | true => exact step_of_child h
    | false =>
      simp only [next, childFails] at h
      split at h <;> cases h
      exact .childFailed ‹_›
  | read n => exact step_of_parentRead h
  | write bs =>
    simp only [next] at h
    split at h <;> cases h
    next hwrite => exact .wrote hwrite.1 hwrite.2.1 hwrite.2.2
  | dup =>
    simp only [next] at h
    split at h <;> cases h
    exact .dup ‹_›
  | close =>
    simp only [next] at h
    split at h <;> cases h
    exact .close ‹_›
  | exit status =>
    simp only [next] at h
    split at h <;> cases h
    exact .exited ‹_›

/-! ### Who can still write -/

theorem holds_eq_zero {isEnd : Desc α → Bool} {t : Table α} :
    holds isEnd t = 0 ↔ ∀ fd, (t.slot fd).any isEnd = false := by
  unfold holds
  rw [List.countP_eq_zero]
  constructor
  · intro h fd
    by_cases hfd : fd < t.limit
    · simpa using h fd (List.mem_range.mpr hfd)
    · rw [t.closed fd (not_lt.mp hfd)]
      rfl
  · intro h fd _
    simp [h fd]

theorem holds_close {isEnd : Desc α → Bool} {t : Table α} (h : holds isEnd t = 0) (fd : ℕ) :
    holds isEnd (t.close fd) = 0 := by
  rw [holds_eq_zero] at h ⊢
  intro fd'
  rw [FdTable.close_slot]
  rcases eq_or_ne fd' fd with rfl | hne
  · rw [Function.update_self]
    rfl
  · rw [Function.update_of_ne hne]
    exact h fd'

theorem holds_dup2 {isEnd : Desc α → Bool} {t t' : Table α} {old new : ℕ}
    (h : holds isEnd t = 0) (hdup : t.dup2 old new = some t') : holds isEnd t' = 0 := by
  rw [holds_eq_zero] at h ⊢
  intro fd
  rw [(FdTable.dup2_eq_some hdup).1]
  rcases eq_or_ne fd new with rfl | hne
  · rw [Function.update_self]
    exact h old
  · rw [Function.update_of_ne hne]
    exact h fd

/-- Nobody has the write end, and nobody can get it. -/
structure Dry (s : State α) : Prop where
  parent : s.parent.running = true → holds Desc.isWriteEnd s.fds = 0
  child : s.child.starting = true → holds Desc.isWriteEnd s.childFds = 0
  holders : s.holders = 0

theorem dry_of_not_writerOpen (h : ¬ s.writerOpen) : Dry s := by
  unfold State.writerOpen at h
  simp only [not_or, not_and, Nat.pos_iff_ne_zero, not_not] at h
  exact ⟨h.1, h.2.1, h.2.2⟩

/-- Once the pipe is made, it stays so. -/
theorem Dry.step (h : Dry s) (hs : Step cap s e s') (hpc : s.parent ≠ .pipe) : Dry s' := by
  obtain ⟨hparent, hchild, hholders⟩ := h
  have hstart : ∀ {pc : ChildPc}, s.child = pc → pc.starting = true →
      holds Desc.isWriteEnd s.childFds = 0 := fun hc hpc => hchild (hc ▸ hpc)
  have hrun : ∀ {pc : ParentPc}, s.parent = pc → pc.running = true →
      holds Desc.isWriteEnd s.fds = 0 := fun hc hpc => hparent (hc ▸ hpc)
  cases hs with
  | piped old => exact absurd old hpc
  | forked old => exact ⟨fun _ => hrun old rfl, fun _ => hrun old rfl, hholders⟩
  | closedWriter old | closedReader old =>
    exact ⟨fun _ => holds_close (hrun old rfl) _, hchild, hholders⟩
  | read old | atEnd old | waited old => exact ⟨fun _ => hrun old rfl, hchild, hholders⟩
  | printed | parentFailed => exact ⟨nofun, hchild, hholders⟩
  | childClosedReader old | childClosedWriter old =>
    exact ⟨hparent, fun _ => holds_close (hstart old rfl) _, hholders⟩
  | duped old dup => exact ⟨hparent, fun _ => holds_dup2 (hstart old rfl) dup, hholders⟩
  | execed old => exact ⟨hparent, nofun, hstart old rfl⟩
  | childFailed | exited => exact ⟨hparent, nofun, hholders⟩
  | wrote hold | dup hold | close hold => omega

/-! ### The count -/

/-- The bytes `bs` have been counted. -/
def CountOf (bs : Bytes) (c : Counts) : Prop :=
  ∃ st : Counter.State, st.c = c ∧ Counted ⟨0, 0, 0⟩ bs.length bs st

/-- All that was ever written has been counted, and nothing will come. -/
structure Total (s : State α) (c : Counts) : Prop where
  empty : s.pipe = []
  dry : Dry s
  count : CountOf s.written c

theorem Total.step {c : Counts} (h : Total s c) (hs : Step cap s e s') (hpc : s.parent ≠ .pipe) :
    Total s' c := by
  have hdry := h.dry.step hs hpc
  have hholders := h.dry.holders
  obtain ⟨hempty, -, hcount⟩ := h
  cases hs with
  | @read pfd st n old pos size le =>
    rw [hempty] at le
    exact absurd (Nat.le_zero.mp le) pos
  | wrote hold => omega
  | _ => exact ⟨hempty, hdry, hcount⟩

/-- What is known where the parent is at `pc`. -/
def Knows (s : State α) : ParentPc → Prop
  | .pipe | .fork _ => s.child = .unborn ∧ s.holders = 0 ∧ s.pipe = s.written
  | .closeWriter _ => s.pipe = s.written
  | .read _ st => ∃ seen, s.written = seen ++ s.pipe ∧ Counted ⟨0, 0, 0⟩ seen.length seen st
  | .closeReader _ c | .waitpid c => Total s c
  | .print c status => Total s c ∧ s.child = .ended status
  | .exited _ => True

/-- What the counter prints is the count of all that was ever written, and what
    it returns then is the status of the command. -/
structure Tally (s : State α) : Prop where
  known : Knows s s.parent
  silent : s.parent.running = true → s.shown = none
  shown : ∀ r, s.shown = some r → ∃ c status, r = report c ∧ Total s c ∧
    s.child = .ended status ∧ s.parent = .exited status.result

theorem tally_init (t : FdTable α) : Tally (init t) :=
  ⟨⟨rfl, rfl, rfl⟩, fun _ => rfl, nofun⟩

/-- A step of the child or of the command. -/
theorem Tally.other (h : Tally s) (hs : Step cap s e s') (hparent : s'.parent = s.parent)
    (hborn : ¬ (s.child = .unborn ∧ s.holders = 0)) (hshown : s'.shown = s.shown)
    (hended : ∀ status, s.child = .ended status → s'.child = .ended status)
    (hflow : ∀ seen, s.written = seen ++ s.pipe → s'.written = seen ++ s'.pipe) : Tally s' := by
  have hrunning : ∀ {c : Counts}, Total s c → s.parent ≠ .pipe → Total s' c :=
    fun ht hpc => ht.step hs hpc
  constructor
  case silent =>
    rw [hparent, hshown]
    exact h.silent
  case shown =>
    intro r hr
    rw [hshown] at hr
    obtain ⟨c, status, hreport, htotal, hstatus, hexited⟩ := h.shown r hr
    refine ⟨c, status, hreport, hrunning htotal ?_, hended _ hstatus, hparent.trans hexited⟩
    rw [hexited]
    exact nofun
  case known =>
    have hknown := h.known
    rw [hparent]
    cases hpc : s.parent with
    | pipe | fork pfd =>
      rw [hpc] at hknown
      exact absurd ⟨hknown.1, hknown.2.1⟩ hborn
    | closeWriter pfd =>
      rw [hpc] at hknown
      have hnil := hflow [] (Eq.symm hknown)
      exact hnil.symm
    | read pfd st =>
      rw [hpc] at hknown
      obtain ⟨seen, hseen, hcounted⟩ := hknown
      exact ⟨seen, hflow seen hseen, hcounted⟩
    | closeReader pfd c | waitpid c =>
      rw [hpc] at hknown
      exact hrunning hknown (by rw [hpc]; exact nofun)
    | print c status =>
      rw [hpc] at hknown
      exact ⟨hrunning hknown.1 (by rw [hpc]; exact nofun), hended _ hknown.2⟩
    | exited rc => trivial

/-- A step of the parent that prints nothing. -/
theorem Tally.parent_moves (h : Tally s) (hold : s.parent.running = true)
    (hshown : s'.shown = s.shown) (hknown : Knows s' s'.parent) : Tally s' := by
  have hsilent := hshown.trans (h.silent hold)
  refine ⟨hknown, fun _ => hsilent, fun r hr => ?_⟩
  rw [hsilent] at hr
  cases hr

theorem Tally.step (h : Tally s) (hs : Step cap s e s') : Tally s' := by
  have hstep := hs
  have hknown := h.known
  have hchild : ∀ {pc : ChildPc}, s.child = pc → pc ≠ .unborn →
      ¬ (s.child = .unborn ∧ s.holders = 0) :=
    fun hc hne hunborn => hne (hc.symm.trans hunborn.1)
  cases hs with
  | piped old =>
    rw [old] at hknown
    exact h.parent_moves (by rw [old]; rfl) rfl hknown
  | forked old =>
    rw [old] at hknown
    exact h.parent_moves (by rw [old]; rfl) rfl hknown.2.2
  | closedWriter old =>
    rw [old] at hknown
    exact h.parent_moves (by rw [old]; rfl) rfl ⟨[], Eq.symm hknown, Counted.start _⟩
  | @read pfd st n old pos size le =>
    rw [old] at hknown
    obtain ⟨seen, hseen, hcounted⟩ := hknown
    refine h.parent_moves (by rw [old]; rfl) rfl ⟨seen ++ s.pipe.take n, ?_, ?_⟩
    · show s.written = seen ++ s.pipe.take n ++ s.pipe.drop n
      rw [List.append_assoc, List.take_append_drop, hseen]
    · rw [List.length_append]
      exact hcounted.chunk _
  | @atEnd pfd st old empty eof =>
    rw [old] at hknown
    obtain ⟨seen, hseen, hcounted⟩ := hknown
    rw [empty, List.append_nil] at hseen
    have hdry := (dry_of_not_writerOpen eof).step hstep (by rw [old]; exact nofun)
    refine h.parent_moves (by rw [old]; rfl) rfl ⟨empty, hdry, st, rfl, ?_⟩
    show Counted _ s.written.length s.written st
    rw [hseen]
    exact hcounted
  | closedReader old =>
    rw [old] at hknown
    exact h.parent_moves (by rw [old]; rfl) rfl (Total.step hknown hstep (by rw [old]; exact nofun))
  | waited old ended =>
    rw [old] at hknown
    exact h.parent_moves (by rw [old]; rfl) rfl
      ⟨Total.step hknown hstep (by rw [old]; exact nofun), ended⟩
  | @printed c status old =>
    rw [old] at hknown
    obtain ⟨htotal, hended⟩ := hknown
    refine ⟨trivial, nofun, fun r hr => ?_⟩
    cases hr
    exact ⟨c, status, rfl, htotal.step hstep (by rw [old]; exact nofun), hended, rfl⟩
  | parentFailed old => exact h.parent_moves old rfl trivial
  | childClosedReader old | duped old | childClosedWriter old | execed old | exited old =>
    exact h.other hstep rfl (hchild old nofun) rfl
      (fun _ hc => nomatch old.symm.trans hc) fun _ hf => hf
  | childFailed old =>
    refine h.other hstep rfl ?_ rfl ?_ fun _ hf => hf
    · intro hunborn
      rw [hunborn.1] at old
      cases old
    · intro status hc
      rw [hc] at old
      cases old
  | @wrote bs hold reader room =>
    refine h.other hstep rfl (fun hunborn => by omega) rfl (fun _ hc => hc) ?_
    intro seen hseen
    show s.written ++ bs = seen ++ (s.pipe ++ bs)
    rw [hseen, List.append_assoc]
  | dup hold =>
    exact h.other hstep rfl (fun hunborn => by omega) rfl (fun _ hc => hc) fun _ hf => hf
  | close hold =>
    exact h.other hstep rfl (fun hunborn => by omega) rfl (fun _ hc => hc) fun _ hf => hf

theorem tally {t : FdTable α} (h : (counter t cap).Reachable s) : Tally s := by
  induction h with
  | init hs =>
    cases hs
    exact tally_init t
  | step _ hstep ih => exact ih.step (step_of_next hstep)

end Counter.Command
