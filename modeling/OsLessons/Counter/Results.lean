import OsLessons.Counter.Descriptors

/-! # The counter: results

  - `waits_for_command`: the counter's own processes wait for nobody but the
    command and its processes.
  - `counts_the_command`: what is printed is the count of all that the command
    wrote.
-/

namespace Counter.Command

open Lts Posix Reads Runs

variable {α : Type} {cap : ℕ} {t : FdTable α} {s s' : State α} {e : Event}

/-! ### Progress -/

/-- A call of the code of `main` that does not fail. -/
def Event.succeeds : Event → Bool
  | .parent ok | .child ok => ok
  | .read _ => true
  | _ => false

theorem holds_found {slot : ℕ → Option (Desc α)} (hslot : slot = found t) (fd : ℕ) :
    (slot fd).any Desc.isWriteEnd = false := by
  rw [hslot, found, FdTable.map_slot]
  cases t.slot fd <;> rfl

/-- The parent that reads has no write end. -/
theorem holds_reading {pfd : Pfd}
    (hslot : s.fds.slot = Function.update (found t) pfd.1 (some .readEnd)) :
    holds Desc.isWriteEnd s.fds = 0 := by
  rw [holds_eq_zero]
  intro fd
  rw [hslot]
  rcases eq_or_ne fd pfd.1 with rfl | hne
  · rw [Function.update_self]
    rfl
  · rw [Function.update_of_ne hne]
    exact holds_found rfl fd

/-- The child can always go on until it is the command. -/
theorem child_goes_on (h : Wired t s) (hstart : s.child.starting = true) :
    ∃ s', child s = some s' := by
  unfold child
  cases hpc : s.child with
  | closeReader pfd | closeWriter pfd | exec => exact ⟨_, rfl⟩
  | dup2 pfd =>
    have hchild := h.child
    rw [hpc] at hchild
    obtain ⟨hends, hslot⟩ := hchild
    have hlimit : 1 < s.childFds.limit := h.childLimit ▸ hends.limit
    have hold : s.childFds.slot pfd.2 = some .writeEnd := by
      rw [hslot, Function.update_self]
    simp [FdTable.dup2, hlimit, hold]
  | unborn | command | ended =>
    rw [hpc] at hstart
    cases hstart

/-- **Nobody waits but for the command**: where no call of the counter can
    succeed, it has ended, or there are no two descriptors for the pipe, or the
    command or one of its processes is still there. -/
theorem waits_for_command (h : Wired t s) (hquiet : ∀ e, e.succeeds = true → next cap s e = none) :
    (∃ rc, s.parent = .exited rc) ∨ (s.parent = .pipe ∧ s.fds.pipe .readEnd .writeEnd = none) ∨
      s.child = .command ∨ 0 < s.holders := by
  have hparent : parent s = none := hquiet (.parent true) rfl
  have hread : ∀ n, parentRead s n = none := fun n => hquiet (.read n) rfl
  have hchild : s.child.starting = false := by
    by_contra hstart
    obtain ⟨s', hs'⟩ := child_goes_on h (by simpa using hstart)
    exact Option.some_ne_none s' (hs'.symm.trans (hquiet (.child true) rfl))
  have hwired := h.parent
  unfold parent at hparent
  unfold parentRead at hread
  cases hpc : s.parent with
  | pipe =>
    rw [hpc] at hparent
    exact .inr (.inl ⟨rfl, Option.map_eq_none_iff.mp hparent⟩)
  | exited rc => exact .inl ⟨rc, rfl⟩
  | fork | closeWriter | closeReader | print =>
    rw [hpc] at hparent
    cases hparent
  | read pfd st =>
    rw [hpc] at hwired
    obtain ⟨-, hslot⟩ := hwired
    have hopen : (s.fds.slot pfd.1).any Desc.isReadEnd = true := by
      rw [hslot, Function.update_self]
      rfl
    simp only [hpc, hopen, ↓reduceIte] at hread
    -- a pipe that is not empty can be read
    have hempty : s.pipe = [] := by
      by_contra hne
      have hpos : 1 ≤ s.pipe.length := List.length_pos_iff.mpr hne
      have hone := hread 1
      simp [hpos, BUF_SIZE] at hone
    -- and one that has no writer is at its end
    have hwriter : s.writerOpen := by
      by_contra hdry
      have hzero := hread 0
      simp [hempty, hdry] at hzero
    rcases hwriter with ⟨-, hpos⟩ | ⟨hstart, -⟩ | hholders
    · rw [holds_reading hslot] at hpos
      exact absurd hpos (lt_irrefl 0)
    · rw [hchild] at hstart
      cases hstart
    · exact .inr (.inr (.inr hholders))
  | waitpid c =>
    simp only [hpc] at hparent
    cases hc : s.child with
    | command => exact .inr (.inr (.inl rfl))
    | ended status =>
      rw [hc] at hparent
      cases hparent
    | unborn =>
      rcases h.born hc with hp | ⟨pfd, hp⟩ | ⟨rc, hp⟩ <;> cases hpc.symm.trans hp
    | closeReader | dup2 | closeWriter | exec =>
      rw [hc] at hchild
      cases hchild

/-! ### How long the parent runs -/

/-- A step of the parent. -/
def Event.ofParent : Event → Bool
  | .parent _ | .read _ => true
  | _ => false

def ParentPc.left : ParentPc → ℕ
  | .pipe => 7
  | .fork _ => 6
  | .closeWriter _ => 5
  | .read _ _ => 4
  | .closeReader _ _ => 3
  | .waitpid _ => 2
  | .print _ _ => 1
  | .exited _ => 0

/-- The parent reads at least one byte at a time. -/
theorem step_pays (hs : Step cap s e s') :
    (s'.parent.left + s'.pipe.length : ℤ) - s'.written.length + (if e.ofParent then 1 else 0) ≤
      (s.parent.left + s.pipe.length : ℤ) - s.written.length := by
  cases hs with
  | piped old | forked old | closedWriter old | closedReader old | waited old | printed old
  | atEnd old =>
    simp only [old, ParentPc.left, Event.ofParent, ↓reduceIte]
    omega
  | @read pfd st n old pos size le =>
    simp only [old, ParentPc.left, Event.ofParent, ↓reduceIte, List.length_drop]
    omega
  | @parentFailed rc old =>
    have hpos : 1 ≤ s.parent.left := by
      cases hpc : s.parent with
      | exited rc =>
        rw [hpc] at old
        cases old
      | _ => simp [ParentPc.left]
    have hzero : (ParentPc.exited rc).left = 0 := rfl
    simp only [hzero, Event.ofParent, ↓reduceIte]
    omega
  | wrote =>
    simp only [Event.ofParent, List.length_append, Bool.false_eq_true, ↓reduceIte]
    omega
  | childClosedReader | duped | childClosedWriter | execed | childFailed | dup | close | exited =>
    simp only [Event.ofParent, Bool.false_eq_true, ↓reduceIte]
    omega

theorem run_pays {es : List Event} (h : (counter t cap).Run s es s') :
    (s'.parent.left + s'.pipe.length : ℤ) - s'.written.length + es.countP Event.ofParent ≤
      (s.parent.left + s.pipe.length : ℤ) - s.written.length := by
  induction h with
  | nil => simp
  | @cons s s₁ s₂ e es hstep _ ih =>
    have hone := step_pays (step_of_next hstep)
    rw [List.countP_cons]
    split_ifs at hone ⊢ <;> push_cast <;> omega

theorem parent_steps_le {es : List Event} (h : (counter t cap).Run (init t) es s) :
    es.countP Event.ofParent ≤ s.written.length + 7 := by
  have hpaid := run_pays h
  have hstart : (init t).parent.left = 7 ∧ (init t).pipe = [] ∧ (init t).written = [] :=
    ⟨rfl, rfl, rfl⟩
  rw [hstart.1, hstart.2.1, hstart.2.2, List.length_nil] at hpaid
  omega

/-! ### What is printed -/

/-- Two counts of the same bytes are equal. -/
theorem c_eq_of_counted {c : Counts} {b : ℕ} {bs : Bytes} {st st' : Counter.State}
    (h : Counted c b bs st) (h' : Counted c b bs st') : st.c = st'.c := by
  have hbytes := h.bytes.trans h'.bytes.symm
  have hwords := h.words.trans h'.words.symm
  have hlines := h.lines.trans h'.lines.symm
  calc st.c = ⟨st.c.bytes, st.c.words, st.c.lines⟩ := rfl
    _ = ⟨st'.c.bytes, st'.c.words, st'.c.lines⟩ := by rw [hbytes, hwords, hlines]

theorem CountOf.main_stdin {bs : Bytes} {c : Counts} (h : CountOf bs c)
    {chunks : List (Chunk BUF_SIZE)} (hbs : stream chunks = bs) :
    main_stdin (Fd.ofChunks chunks) = (some (report c), 0) := by
  obtain ⟨st, rfl, hcounted⟩ := h
  obtain ⟨st', hst', hcounted'⟩ := (Counted.start ⟨0, 0, 0⟩).chunks chunks
  rw [List.nil_append, Nat.zero_add, hbs] at hcounted'
  have hcount : count_fd (Fd.ofChunks chunks) ⟨0, 0, 0⟩ = some st'.c := hst'
  unfold Command.main_stdin
  rw [hcount, c_eq_of_counted hcounted hcounted']

theorem CountOf.toNat {bs : Bytes} {c : Counts} (h : CountOf bs c) :
    c.bytes.toNat = bs.length % 2 ^ 64 ∧ c.lines.toNat = bs.count 0x0a % 2 ^ 64 ∧
      c.words.toNat = runCount (fun ch => !isspace ch) bs % 2 ^ 64 := by
  obtain ⟨st, rfl, hcounted⟩ := h
  refine ⟨?_, ?_, ?_⟩
  · rw [hcounted.bytes, toNat_add_toUInt64]
    simp
  · rw [hcounted.lines, toNat_add_toUInt64]
    simp
  · show _ = runCount inside bs % 2 ^ 64
    rw [hcounted.words, toNat_add_toUInt64]
    simp

/-- A parent of which no call fails prints before it ends. -/
theorem shown_of_exited {es : List Event} (h : (counter t cap).Run s es s')
    (hok : .parent false ∉ es) (hs : ∀ rc, s.parent = .exited rc → s.shown.isSome = true) :
    ∀ rc, s'.parent = .exited rc → s'.shown.isSome = true := by
  induction h with
  | nil => exact hs
  | @cons s s₁ s₂ e es hstep _ ih =>
    simp only [List.mem_cons, not_or] at hok
    apply ih hok.2
    have hs₁ : Step cap s e s₁ := step_of_next hstep
    cases hs₁ with
    | printed => exact fun _ _ => rfl
    | parentFailed => exact absurd rfl hok.1
    | piped | forked | closedWriter | read | atEnd | closedReader | waited => exact nofun
    | _ => exact hs

/-- **The counter counts what the command writes.** In every run, whatever the
    command does, over a pipe of any capacity:
    what is printed is what the counter would print for the same bytes on its
    standard input, and when it is printed the command has ended, nobody has
    the pipe any more, and the counter returns the command's status;
    if no call of the parent fails, it prints before it ends;
    it makes at most seven calls and one for each byte that was written;
    and nobody waits for anything but the command and its processes. -/
theorem counts_the_command {es : List Event} (h : (counter t cap).Run (init t) es s) :
    (∀ r, s.shown = some r → ∃ c status, r = report c ∧
      s.child = .ended status ∧ s.parent = .exited status.result ∧ s.holders = 0 ∧
      c.bytes.toNat = s.written.length % 2 ^ 64 ∧ c.lines.toNat = s.written.count 0x0a % 2 ^ 64 ∧
      c.words.toNat = runCount (fun ch => !isspace ch) s.written % 2 ^ 64 ∧
      ∀ chunks, stream chunks = s.written → main_stdin (Fd.ofChunks chunks) = (some r, 0)) ∧
    (.parent false ∉ es → ∀ rc, s.parent = .exited rc → s.shown.isSome = true) ∧
    es.countP Event.ofParent ≤ s.written.length + 7 ∧
    ((∀ e, e.succeeds = true → ¬ (counter t cap).Enabled s e) →
      (∃ rc, s.parent = .exited rc) ∨ (s.parent = .pipe ∧ s.fds.pipe .readEnd .writeEnd = none) ∨
        s.child = .command ∨ 0 < s.holders) := by
  have hreach : (counter t cap).Reachable s := h.reachable (.init rfl)
  refine ⟨?_, fun hok => shown_of_exited h hok nofun, parent_steps_le h, ?_⟩
  · intro r hr
    obtain ⟨c, status, rfl, htotal, hended, hexited⟩ := (tally hreach).shown r hr
    obtain ⟨hbytes, hlines, hwords⟩ := htotal.count.toNat
    exact ⟨c, status, rfl, hended, hexited, htotal.dry.holders, hbytes, hlines, hwords,
      fun chunks hchunks => htotal.count.main_stdin hchunks⟩
  · intro hquiet
    have hnone : ∀ e, e.succeeds = true → next cap s e = none := by
      intro e he
      by_contra hnext
      obtain ⟨s', hs'⟩ := Option.ne_none_iff_exists'.mp hnext
      exact hquiet e he ⟨s', hs'⟩
    exact waits_for_command (wired hreach) hnone

/-- The command writes `a b` and a newline, leaves the pipe to a process of its
    own and returns 255; that process writes `c`. -/
def pairRun : List Event :=
  [.parent true, .parent true, .child true, .parent true, .child true, .child true, .child true,
    .write [97, 32], .read 2, .write [98, 10], .dup, .close, .exit (.exited (Fin.last 255)),
    .read 1, .write [99], .read 2, .close, .read 0, .parent true, .parent true, .parent true]

theorem counts_the_command_pair : ∃ es s c, (counter terminal 4).Run (init terminal) es s ∧
    s.parent = .exited 255 ∧ s.written = [97, 32, 98, 10, 99] ∧ s.shown = some (report c) ∧
    c.bytes.toNat = 5 ∧ c.lines.toNat = 1 ∧ c.words.toNat = 3 := by
  have hrun : (System.follow (next 4) (init terminal) pairRun).any (fun s =>
      decide (s.written = [97, 32, 98, 10, 99] ∧ s.parent = .exited 255)) = true := by
    decide +kernel
  obtain ⟨s, hfollow, hprop⟩ := (Option.any_eq_true _ _).mp hrun
  obtain ⟨hwritten, hexited⟩ := of_decide_eq_true hprop
  have h : (counter terminal 4).Run (init terminal) pairRun s :=
    System.Run.of_follow (fun _ _ _ hnext => hnext) hfollow
  obtain ⟨hcount, hprints, -⟩ := counts_the_command h
  obtain ⟨r, hr⟩ := Option.isSome_iff_exists.mp (hprints (by decide) 255 hexited)
  obtain ⟨c, status, rfl, -, -, -, hbytes, hlines, hwords, -⟩ := hcount r hr
  rw [hwritten] at hbytes hlines hwords
  rw [runCount_eq] at hwords
  exact ⟨pairRun, s, c, h, hexited, hwritten, hr, hbytes, hlines, hwords.trans (by decide +kernel)⟩

end Counter.Command
