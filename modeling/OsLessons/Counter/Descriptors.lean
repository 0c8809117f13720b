import OsLessons.Counter.Counting

/-! # The counter: descriptors

  Which descriptors the parent and the child have of the pipe at every point.
  The command finds all descriptors as `main` did, but for standard output,
  which is the pipe (`command_stdout`). The one exception: if `main` starts
  without descriptors 0 and 1, the write end is descriptor 1 itself, and the
  child closes it.
-/

namespace Counter.Command

open Lts Posix Reads

variable {α : Type} {cap : ℕ} {t : FdTable α} {s s' : State α} {e : Event} {pfd : Pfd}

/-! ### The ends of the pipe -/

/-- What `main` finds. -/
def found (t : FdTable α) : ℕ → Option (Desc α) := (t.map Desc.inherited).slot

/-- `pipe` has returned `pfd`. -/
structure Ends (t : FdTable α) (pfd : Pfd) : Prop where
  reader : found t pfd.1 = none
  writer : found t pfd.2 = none
  ne : pfd.1 ≠ pfd.2
  limit : 1 < t.limit
  stdout : pfd.2 = 1 ↔ t.slot 0 = none ∧ t.slot 1 = none

def both (t : FdTable α) (pfd : Pfd) : ℕ → Option (Desc α) :=
  Function.update (Function.update (found t) pfd.1 (some .readEnd)) pfd.2 (some .writeEnd)

theorem found_eq_none {fd : ℕ} : found t fd = none ↔ t.slot fd = none := by
  simp [found]

theorem ends_of_pipe {fds fds' : Table α} (hslot : fds.slot = found t) (hlimit : fds.limit = t.limit)
    (h : fds.pipe .readEnd .writeEnd = some (pfd, fds')) :
    Ends t pfd ∧ fds'.slot = both t pfd ∧ fds'.limit = t.limit := by
  obtain ⟨a, b⟩ := pfd
  obtain ⟨ha, hb, hne, hlimit', hslot'⟩ := FdTable.pipe_eq_some h
  obtain ⟨halt, hblt, hlow, hlow'⟩ := FdTable.lowest_of_pipe h
  rw [hslot] at ha hb hslot'
  rw [hlimit] at halt hblt hlimit'
  simp only [hslot, ne_eq, found_eq_none] at hlow hlow'
  refine ⟨⟨ha, hb, hne, by omega, ?_, ?_⟩, hslot', hlimit'⟩
  · intro hone
    change b = 1 at hone
    subst hone
    have hzero : a = 0 := by
      by_contra hpos
      exact hlow 1 (by omega) (found_eq_none.mp hb)
    subst hzero
    exact ⟨found_eq_none.mp ha, found_eq_none.mp hb⟩
  · rintro ⟨h0, h1⟩
    have hzero : a = 0 := by
      by_contra hpos
      exact hlow 0 (by omega) h0
    show b = 1
    by_contra hb1
    exact hlow' 1 (by omega) (by omega) h1

/-- To open a descriptor and close it again changes nothing. -/
theorem update_none {f : ℕ → Option (Desc α)} {fd : ℕ} (h : f fd = none) (d : Option (Desc α)) :
    Function.update (Function.update f fd d) fd none = f := by
  rw [Function.update_idem, ← h, Function.update_eq_self]

/-! ### Where they are -/

/-- The descriptors of the parent at a program point. -/
def ParentPc.Wired (t : FdTable α) (slot : ℕ → Option (Desc α)) : ParentPc → Prop
  | .pipe | .waitpid _ | .print _ _ => slot = found t
  | .fork pfd | .closeWriter pfd => Ends t pfd ∧ slot = both t pfd
  | .read pfd _ | .closeReader pfd _ =>
      Ends t pfd ∧ slot = Function.update (found t) pfd.1 (some .readEnd)
  | .exited _ => True

/-- The descriptors of the child at a program point, until it is the command. -/
def ChildPc.Wired (t : FdTable α) (slot : ℕ → Option (Desc α)) : ChildPc → Prop
  | .closeReader pfd => Ends t pfd ∧ slot = both t pfd
  | .dup2 pfd => Ends t pfd ∧ slot = Function.update (found t) pfd.2 (some .writeEnd)
  | .closeWriter pfd => Ends t pfd ∧ slot = Function.update
      (Function.update (found t) pfd.2 (some .writeEnd)) 1 (some .writeEnd)
  | .exec | .command => ∃ pfd, Ends t pfd ∧ slot = Function.update
      (Function.update (Function.update (found t) pfd.2 (some .writeEnd)) 1 (some .writeEnd))
      pfd.2 none
  | .unborn | .ended _ => True

structure Wired (t : FdTable α) (s : State α) : Prop where
  parent : s.parent.Wired t s.fds.slot
  child : s.child.Wired t s.childFds.slot
  limit : s.fds.limit = t.limit
  childLimit : s.childFds.limit = t.limit
  born : s.child = .unborn → s.parent = .pipe ∨ (∃ pfd, s.parent = .fork pfd) ∨
    ∃ rc, s.parent = .exited rc

theorem wired_init (t : FdTable α) : Wired t (init t) :=
  ⟨rfl, trivial, rfl, rfl, fun _ => .inl rfl⟩

theorem Wired.step (h : Wired t s) (hs : Step cap s e s') : Wired t s' := by
  obtain ⟨hparent, hchild, hlimit, hlimit', hborn⟩ := h
  have hlate : ∀ {pc : ParentPc}, s.parent = pc → pc ≠ .pipe → (∀ pfd, pc ≠ .fork pfd) →
      (∀ rc, pc ≠ .exited rc) → s.child ≠ .unborn := by
    intro pc old hpipe hfork hexited hunborn
    rcases hborn hunborn with hpc | ⟨pfd, hpc⟩ | ⟨rc, hpc⟩
    · exact hpipe (old.symm.trans hpc)
    · exact hfork pfd (old.symm.trans hpc)
    · exact hexited rc (old.symm.trans hpc)
  cases hs with
  | @piped r old pipe =>
    rw [old] at hparent
    obtain ⟨hends, hslot, hnew⟩ := ends_of_pipe hparent hlimit pipe
    exact ⟨⟨hends, hslot⟩, hchild, hnew, hlimit', fun _ => .inr (.inl ⟨r.1, rfl⟩)⟩
  | forked old =>
    rw [old] at hparent
    exact ⟨hparent, hparent, hlimit, hlimit, nofun⟩
  | @closedWriter pfd old =>
    have hne := hlate old nofun nofun nofun
    rw [old] at hparent
    obtain ⟨hends, hslot⟩ := hparent
    refine ⟨⟨hends, ?_⟩, hchild, hlimit, hlimit', fun hunborn => absurd hunborn hne⟩
    rw [FdTable.close_slot, hslot]
    exact update_none ((Function.update_of_ne hends.ne.symm ..).trans hends.writer) _
  | read old | atEnd old =>
    have hne := hlate old nofun nofun nofun
    rw [old] at hparent
    exact ⟨hparent, hchild, hlimit, hlimit', fun hunborn => absurd hunborn hne⟩
  | @closedReader pfd c old =>
    have hne := hlate old nofun nofun nofun
    rw [old] at hparent
    obtain ⟨hends, hslot⟩ := hparent
    refine ⟨?_, hchild, hlimit, hlimit', fun hunborn => absurd hunborn hne⟩
    show Function.update s.fds.slot pfd.1 none = found t
    rw [hslot]
    exact update_none hends.reader _
  | waited old ended =>
    have hne := hlate old nofun nofun nofun
    rw [old] at hparent
    exact ⟨hparent, hchild, hlimit, hlimit', fun hunborn => absurd hunborn hne⟩
  | printed | parentFailed =>
    exact ⟨trivial, hchild, hlimit, hlimit', fun _ => .inr (.inr ⟨_, rfl⟩)⟩
  | @childClosedReader pfd old =>
    rw [old] at hchild
    obtain ⟨hends, hslot⟩ := hchild
    refine ⟨hparent, ⟨hends, ?_⟩, hlimit, hlimit', nofun⟩
    rw [FdTable.close_slot, hslot, both, Function.update_comm hends.ne.symm]
    rw [update_none hends.reader]
  | @duped pfd t' old dup =>
    rw [old] at hchild
    obtain ⟨hends, hslot⟩ := hchild
    obtain ⟨hslot', hnew⟩ := FdTable.dup2_eq_some dup
    refine ⟨hparent, ⟨hends, ?_⟩, hlimit, hnew.trans hlimit', nofun⟩
    rw [hslot', hslot, Function.update_self]
  | @childClosedWriter pfd old =>
    rw [old] at hchild
    obtain ⟨hends, hslot⟩ := hchild
    refine ⟨hparent, ⟨pfd, hends, ?_⟩, hlimit, hlimit', nofun⟩
    rw [FdTable.close_slot, hslot]
  | execed old =>
    rw [old] at hchild
    exact ⟨hparent, hchild, hlimit, hlimit', nofun⟩
  | childFailed | exited => exact ⟨hparent, trivial, hlimit, hlimit', nofun⟩
  | wrote | dup | close => exact ⟨hparent, hchild, hlimit, hlimit', hborn⟩

theorem wired (h : (counter t cap).Reachable s) : Wired t s := by
  induction h with
  | init hs =>
    cases hs
    exact wired_init t
  | step _ hstep ih => exact ih.step (step_of_next hstep)

/-- **The command's descriptors** are those `main` has found, but for standard
    output, which is the pipe; unless neither 0 nor 1 was open, when they are
    simply those `main` has found. The parent prints to its own standard output. -/
theorem command_stdout (h : (counter t cap).Reachable s) :
    (s.child = .command →
      if t.slot 0 = none ∧ t.slot 1 = none then s.childFds.slot = found t
      else s.childFds.slot = Function.update (found t) 1 (some .writeEnd)) ∧
    (∀ c status, s.parent = .print c status → s.fds.slot = found t) := by
  have hwired := wired h
  constructor
  · intro hcommand
    have hchild := hwired.child
    rw [hcommand] at hchild
    obtain ⟨pfd, hends, hslot⟩ := hchild
    split
    · next hclosed =>
      have hone := hends.stdout.mpr hclosed
      rw [hone] at hslot
      rw [hslot, Function.update_idem, Function.update_idem, ← found_eq_none.mpr hclosed.2,
        Function.update_eq_self]
    · next hopen =>
      have hne : pfd.2 ≠ 1 := fun hone => hopen (hends.stdout.mp hone)
      rw [hslot, Function.update_comm hne.symm]
      rw [update_none hends.writer]
  · intro c status hprint
    have hparent := hwired.parent
    rw [hprint] at hparent
    exact hparent

/-- No descriptor is open. -/
def daemon : FdTable Unit where
  slot _ := none
  limit := 8
  closed _ _ := rfl

/-- Descriptors 0, 1 and 2 are open. -/
def terminal : FdTable Unit where
  slot fd := if fd < 3 then some () else none
  limit := 8
  closed _ h := if_neg (by omega)

/-- Up to the command. -/
def startRun : List Event :=
  [.parent true, .parent true, .child true, .child true, .child true, .child true]

/-- The ordinary start, and the one with no descriptor at all. -/
theorem command_stdout_starts :
    (∃ s : State Unit, (counter terminal 1).Reachable s ∧ s.child = .command ∧
      s.childFds.slot = Function.update (found terminal) 1 (some .writeEnd)) ∧
    ∃ s : State Unit, (counter daemon 1).Reachable s ∧ s.child = .command ∧
      s.childFds.slot 1 = none := by
  have hstart : ∀ t : FdTable Unit, (System.follow (next 1) (init t) startRun).any
      (fun s => decide (s.child = .command)) = true →
      ∃ s : State Unit, (counter t 1).Reachable s ∧ s.child = .command := by
    intro t hrun
    obtain ⟨s, hfollow, hchild⟩ := (Option.any_eq_true _ _).mp hrun
    have h : (counter t 1).Run (init t) startRun s :=
      System.Run.of_follow (fun _ _ _ hnext => hnext) hfollow
    exact ⟨s, h.reachable (.init rfl), of_decide_eq_true hchild⟩
  constructor
  · obtain ⟨s, hreach, hcommand⟩ := hstart terminal (by decide +kernel)
    have hslot := (command_stdout hreach).1 hcommand
    rw [if_neg (by decide)] at hslot
    exact ⟨s, hreach, hcommand, hslot⟩
  · obtain ⟨s, hreach, hcommand⟩ := hstart daemon (by decide +kernel)
    have hslot := (command_stdout hreach).1 hcommand
    rw [if_pos ⟨rfl, rfl⟩] at hslot
    exact ⟨s, hreach, hcommand, congrFun hslot 1⟩

end Counter.Command
