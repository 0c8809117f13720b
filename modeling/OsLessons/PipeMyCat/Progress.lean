import OsLessons.PipeMyCat.Delivery

/-! # pipe_my_cat: how it ends

  Every call that is not interrupted brings a byte or a process ahead, and as
  long as one of the processes runs some call can return (`copy_ends`). Where no
  call fails both processes return 0 and all of the input has been written.
-/

namespace PipeMyCat

open Lts

variable {cfg : Config} {s s' : State} {a : Answer}

/-! ### Work that is left -/

def ParentPc.rank : ParentPc → ℕ
  | .open => 7
  | .pipe => 6
  | .fork => 5
  | .closeReader => 4
  | .read | .write _ => 3
  | .close => 2
  | .returning => 1
  | .exited _ | .killed => 0

def ChildPc.rank : ChildPc → ℕ
  | .unborn => 4
  | .closeWriter => 3
  | .read | .write _ => 2
  | .failing | .close => 1
  | .exited _ | .killed => 0

/-- A byte has four calls to go through. -/
def State.work (s : State) : ℕ :=
  s.parent.rank + s.child.rank +
    (4 * s.rest.length + 3 * s.parent.left.length + 2 * s.pipe.length + s.child.left.length)

/-- No call has failed in this process. -/
def ParentPc.sound : ParentPc → Bool
  | .exited (_ + 1) | .killed => false
  | _ => true

def ChildPc.sound : ChildPc → Bool
  | .failing | .exited (_ + 1) | .killed => false
  | _ => true

def State.sound (s : State) : Bool := s.parent.sound && s.child.sound

def Answer.good : Answer → Bool
  | .ok | .count _ => true
  | _ => false

@[simp] theorem ParentPc.rank_write_all (left : Bytes) : (ParentPc.write_all left).rank = 3 := by
  unfold write_all
  split <;> rfl

@[simp] theorem ChildPc.rank_write_all (left : Bytes) : (ChildPc.write_all left).rank = 2 := by
  unfold write_all
  split <;> rfl

@[simp] theorem ParentPc.sound_write_all (left : Bytes) :
    (ParentPc.write_all left).sound = true := by
  unfold write_all
  split <;> rfl

@[simp] theorem ChildPc.sound_write_all (left : Bytes) :
    (ChildPc.write_all left).sound = true := by
  unfold write_all
  split <;> rfl

/-- What every call does that is not interrupted: there is less to do behind it,
    and only one that fails makes a process unsound. -/
def Advances (s : State) (a : Answer) (s' : State) : Prop :=
  s'.work < s.work ∧ (a.good = true → s.sound = true → s'.sound = true)

theorem goOn_advances {s₁ : State} (h : goOn s₁ a = some s') (hwork : s₁.work < s.work)
    (hsound : s.sound = true → s₁.sound = true) : Advances s a s' := by
  obtain ⟨rfl, rfl⟩ := goOn_eq_some h
  exact ⟨hwork, fun _ => hsound⟩

theorem setup_advances {s₁ : State} (h : setup s s₁ a = some s') (hearly : s.parent.early = true)
    (hwork : s₁.work < s.work) (hsound : s.sound = true → s₁.sound = true) : Advances s a s' := by
  cases a with
  | ok =>
    cases h
    exact ⟨hwork, fun _ => hsound⟩
  | failed =>
    cases h
    refine ⟨?_, fun hgood => by cases hgood⟩
    have hrank : 0 < s.parent.rank := by
      cases hpc : s.parent with
      | «open» | pipe | fork => decide
      | _ =>
        rw [hpc] at hearly
        cases hearly
    show 0 + s.child.rank + (4 * s.rest.length + 3 * 0 + 2 * s.pipe.length + s.child.left.length) <
      s.work
    unfold State.work
    omega
  | count | interrupted | killed => cases h

theorem parentRead_advances (h : parentRead s a = some s') (old : s.parent = .read)
    (ha : a ≠ .interrupted) : Advances s a s' := by
  have hclose : State.work { s with parent := .close } < s.work := by
    simp only [State.work, old, ParentPc.rank, ParentPc.left, List.length_nil]
    omega
  cases a with
  | count n =>
    rw [parentRead] at h
    split at h
    · split at h <;> cases h
      refine ⟨hclose, fun _ hs => ?_⟩
      rwa [State.sound, old] at hs
    · split at h <;> cases h
      next hn hle =>
      refine ⟨?_, fun _ hs => ?_⟩
      · have hrank : s.parent.rank = 3 := by
          rw [old]
          rfl
        simp only [State.work, hrank, ParentPc.rank_write_all, ParentPc.left_write_all,
          List.length_drop, List.length_take]
        omega
      · rw [State.sound, old] at hs
        rwa [State.sound, ParentPc.sound_write_all]
  | interrupted => exact absurd rfl ha
  | failed =>
    cases h
    exact ⟨hclose, fun hgood => by cases hgood⟩
  | ok | killed => cases h

theorem parentWrite_advances {left : Bytes} (h : parentWrite cfg s left a = some s')
    (old : s.parent = .write left) (ha : a ≠ .interrupted) : Advances s a s' := by
  cases a with
  | count n =>
    rw [parentWrite] at h
    split at h <;> cases h
    next hroom =>
    refine ⟨?_, fun _ hs => ?_⟩
    · have hrank : s.parent.rank = 3 := by
        rw [old]
        rfl
      have hleft : s.parent.left = left := by
        rw [old]
        rfl
      simp only [State.work, hrank, hleft, ParentPc.rank_write_all, ParentPc.left_write_all,
        List.length_append, List.length_drop, List.length_take]
      omega
    · rw [State.sound, old] at hs
      rwa [State.sound, ParentPc.sound_write_all]
  | interrupted => exact absurd rfl ha
  | failed =>
    cases h
    refine ⟨?_, fun hgood => by cases hgood⟩
    simp only [State.work, old, ParentPc.rank, ParentPc.left, List.length_nil]
    omega
  | killed =>
    rw [parentWrite] at h
    split at h <;> cases h
    refine ⟨?_, fun hgood => by cases hgood⟩
    simp only [State.work, old, ParentPc.rank, ParentPc.left, List.length_nil]
    omega
  | ok => cases h

theorem parent_advances (h : parent cfg s a = some s')
    (hunborn : s.parent = .fork → s.child = .unborn) (ha : a ≠ .interrupted) :
    Advances s a s' := by
  cases old : s.parent with
  | read =>
    rw [parent, old] at h
    exact parentRead_advances h old ha
  | write left =>
    rw [parent, old] at h
    exact parentWrite_advances h old ha
  | «open» | pipe =>
    rw [parent, old] at h
    refine setup_advances h (by rw [old]; rfl) ?_ ?_
    · simp [State.work, old, ParentPc.rank, ParentPc.left]
    · simp [State.sound, old, ParentPc.sound]
  | fork =>
    rw [parent, old] at h
    have hchild := hunborn old
    refine setup_advances h (by rw [old]; rfl) ?_ ?_
    · simp [State.work, old, hchild, ParentPc.rank, ParentPc.left, ChildPc.rank, ChildPc.left]
    · intro _
      rfl
  | closeReader | close | returning =>
    rw [parent, old] at h
    refine goOn_advances h ?_ ?_
    · simp [State.work, old, ParentPc.rank, ParentPc.left]
    · simp [State.sound, old, ParentPc.sound]
  | exited | killed =>
    rw [parent, old] at h
    cases h

theorem childRead_advances (h : childRead s a = some s') (old : s.child = .read)
    (ha : a ≠ .interrupted) : Advances s a s' := by
  cases a with
  | count n =>
    rw [childRead] at h
    split at h
    · split at h <;> cases h
      refine ⟨?_, fun _ hs => ?_⟩
      · simp only [State.work, old, ChildPc.rank, ChildPc.left, List.length_nil]
        omega
      · rwa [State.sound, old] at hs
    · split at h <;> cases h
      next hn hle =>
      refine ⟨?_, fun _ hs => ?_⟩
      · have hrank : s.child.rank = 2 := by
          rw [old]
          rfl
        simp only [State.work, hrank, ChildPc.rank_write_all, ChildPc.left_write_all,
          List.length_drop, List.length_take]
        omega
      · rw [State.sound, old] at hs
        rwa [State.sound, ChildPc.sound_write_all]
  | interrupted => exact absurd rfl ha
  | failed =>
    cases h
    refine ⟨?_, fun hgood => by cases hgood⟩
    simp only [State.work, old, ChildPc.rank, ChildPc.left, List.length_nil]
    omega
  | ok | killed => cases h

theorem childWrite_advances {left : Bytes} (h : childWrite s left a = some s')
    (old : s.child = .write left) (ha : a ≠ .interrupted) : Advances s a s' := by
  cases a with
  | count n =>
    rw [childWrite] at h
    split at h <;> cases h
    next hle =>
    refine ⟨?_, fun _ hs => ?_⟩
    · have hrank : s.child.rank = 2 := by
        rw [old]
        rfl
      have hleft : s.child.left = left := by
        rw [old]
        rfl
      simp only [State.work, hrank, hleft, ChildPc.rank_write_all, ChildPc.left_write_all,
        List.length_drop]
      omega
    · rw [State.sound, old] at hs
      rwa [State.sound, ChildPc.sound_write_all]
  | interrupted => exact absurd rfl ha
  | failed | killed =>
    cases h
    refine ⟨?_, fun hgood => by cases hgood⟩
    simp only [State.work, old, ChildPc.rank, ChildPc.left, List.length_nil]
    omega
  | ok => cases h

theorem child_advances (h : child s a = some s') (ha : a ≠ .interrupted) : Advances s a s' := by
  cases old : s.child with
  | read =>
    rw [child, old] at h
    exact childRead_advances h old ha
  | write left =>
    rw [child, old] at h
    exact childWrite_advances h old ha
  | closeWriter | failing | close =>
    rw [child, old] at h
    refine goOn_advances h ?_ ?_
    · simp [State.work, old, ChildPc.rank, ChildPc.left]
    · simp [State.sound, old, ChildPc.sound]
  | unborn | exited | killed =>
    rw [child, old] at h
    cases h

theorem advances {e : Event} (h : (pipe_my_cat cfg).Reachable s)
    (hstep : (pipe_my_cat cfg).step s e s') (he : e.2 ≠ .interrupted) : Advances s e.2 s' := by
  obtain ⟨p, a⟩ := e
  cases p with
  | parent =>
    have hunborn : s.parent = .fork → s.child = .unborn := by
      intro hfork
      exact (along h).unborn (by rw [hfork]; rfl)
    exact parent_advances hstep hunborn he
  | child => exact child_advances hstep he

theorem interrupted_stays {e : Event} (hstep : (pipe_my_cat cfg).step s e s')
    (he : e.2 = .interrupted) : s' = s := by
  obtain ⟨p, a⟩ := e
  cases he
  have hs := step_of_next hstep
  cases hs with
  | retry => rfl
  | setup old =>
    -- only a call in a loop is interrupted
    change parent cfg s .interrupted = some _ at hstep
    cases hpc : s.parent with
    | «open» | pipe | fork =>
      rw [parent, hpc] at hstep
      cases hstep
    | _ =>
      rw [hpc] at old
      cases old

theorem work_init (cfg : Config) : (init cfg).work ≤ 4 * cfg.input.length + 11 := by
  unfold init State.work
  cases cfg.file <;> simp [ParentPc.rank, ParentPc.left, ChildPc.rank, ChildPc.left] <;> omega

/-! ### Nobody can go on -/

/-- There is no child because something has failed before, or there is one. -/
def Born (s : State) : Prop :=
  s.child = .unborn → s.parent.early = true ∨ s.parent = .exited 1

theorem Born.step {e : Event} (h : Born s) (hs : Step cfg s e s') : Born s' := by
  cases hs with
  | retry => exact h
  | setup old new => exact fun _ => new
  | forked old => exact nofun
  | parentStart old | parentRead old | parentEof old | parentReadFailed old | parentWrite old
  | parentWriteFailed old | parentKilled old | parentClose old | parentReturn old =>
    intro hunborn
    have hnone := h hunborn
    rw [old] at hnone
    rcases hnone with hnone | hnone <;> cases hnone
  | childStart | childEof | childReadFailed | childWriteFailed | childKilled | childReturn =>
    exact nofun
  | childRead | childWrite =>
    intro hunborn
    change ChildPc.write_all _ = .unborn at hunborn
    unfold ChildPc.write_all at hunborn
    split at hunborn <;> cases hunborn

theorem born (h : (pipe_my_cat cfg).Reachable s) : Born s := by
  apply System.invariant _ _ h
  · rintro s rfl _
    unfold init
    cases cfg.file <;> exact .inl rfl
  · exact fun s e s' hs hstep => hs.step (step_of_next hstep)

/-- The call returns what it is to return, or it is the `write` that nobody
    would read. -/
def granted : Event → Bool
  | (_, .ok) | (_, .count _) | (.parent, .killed) => true
  | _ => false

def ParentPc.ended : ParentPc → Bool
  | .exited _ | .killed => true
  | _ => false

theorem parent_quiet (halong : Along cfg s)
    (hquiet : ∀ a, granted (.parent, a) = true → parent cfg s a = none) :
    s.parent.ended = true ∨ s.readerOpen = true ∧ cfg.cap ≤ s.pipe.length := by
  cases old : s.parent with
  | exited | killed => exact .inl rfl
  | «open» | pipe | fork | closeReader | close | returning =>
    have hnone := hquiet .ok rfl
    rw [parent, old] at hnone
    cases hnone
  | read =>
    by_cases hrest : s.rest = []
    · have hnone := hquiet (.count 0) rfl
      rw [parent, old] at hnone
      simp [parentRead, hrest] at hnone
    · have hnone := hquiet (.count 1) rfl
      have hpos := List.length_pos_iff.mpr hrest
      rw [parent, old] at hnone
      simp [parentRead, BUF_SIZE] at hnone
      exact absurd hnone hrest
  | write left =>
    right
    have hpos := List.length_pos_iff.mpr (halong.parent_left left old)
    cases hreader : s.readerOpen with
    | false =>
      have hnone := hquiet .killed rfl
      rw [parent, old] at hnone
      simp [parentWrite, hreader] at hnone
    | true =>
      have hnone := hquiet (.count 1) rfl
      rw [parent, old] at hnone
      simp [parentWrite, hreader] at hnone
      refine ⟨rfl, ?_⟩
      have hfull := hnone hpos
      omega

theorem child_quiet (halong : Along cfg s)
    (hquiet : ∀ a, granted (.child, a) = true → child s a = none) :
    s.child = .unborn ∨ s.child.ended = true ∨ s.writerOpen = true ∧ s.pipe = [] := by
  cases old : s.child with
  | unborn => exact .inl rfl
  | exited | killed => exact .inr (.inl rfl)
  | closeWriter | failing | close =>
    have hnone := hquiet .ok rfl
    rw [child, old] at hnone
    cases hnone
  | read =>
    right; right
    by_cases hpipe : s.pipe = []
    · have hnone := hquiet (.count 0) rfl
      rw [child, old] at hnone
      simp [childRead, hpipe] at hnone
      exact ⟨hnone, hpipe⟩
    · have hnone := hquiet (.count 1) rfl
      rw [child, old] at hnone
      simp [childRead, BUF_SIZE] at hnone
      exact absurd hnone hpipe
  | write left =>
    have hnone := hquiet (.count 1) rfl
    rw [child, old] at hnone
    simp [childWrite] at hnone
    exact absurd hnone (halong.child_left left old)

/-- Where no call can return, both processes have ended; there has never been a
    child if the parent could not set one up. -/
theorem ended_of_quiet (hcap : 0 < cfg.cap) (h : (pipe_my_cat cfg).Reachable s)
    (hquiet : ∀ e, granted e = true → ¬ (pipe_my_cat cfg).Enabled s e) :
    s.parent.ended = true ∧
      (s.child.ended = true ∨ s.child = .unborn ∧ s.parent = .exited 1) := by
  have hnone : ∀ e, granted e = true → next cfg s e = none := by
    intro e he
    by_contra hsome
    exact hquiet e he (Option.ne_none_iff_exists'.mp hsome)
  have hparent := parent_quiet (along h) fun a => hnone (.parent, a)
  have hchild := child_quiet (along h) fun a => hnone (.child, a)
  have hended : s.parent.ended = true := by
    rcases hparent with hended | ⟨hreader, hfull⟩
    · exact hended
    -- the pipe is full, and the child, which is still there, could read from it
    · exfalso
      unfold State.readerOpen at hreader
      rcases hchild with hunborn | hended | ⟨_, hempty⟩
      · rw [hunborn] at hreader
        cases hreader
      · cases hpc : s.child with
        | exited | killed =>
          rw [hpc] at hreader
          cases hreader
        | _ =>
          rw [hpc] at hended
          cases hended
      · rw [hempty] at hfull
        exact absurd hcap (Nat.not_lt.mpr hfull)
  refine ⟨hended, ?_⟩
  rcases hchild with hunborn | hended' | ⟨hwriter, _⟩
  · right
    refine ⟨hunborn, ?_⟩
    rcases born h hunborn with hearly | hone
    · cases hpc : s.parent with
      | «open» | pipe | fork =>
        rw [hpc] at hended
        cases hended
      | _ =>
        rw [hpc] at hearly
        cases hearly
    · exact hone
  · exact .inl hended'
  · unfold State.writerOpen at hwriter
    cases hpc : s.parent with
    | exited | killed =>
      rw [hpc] at hwriter
      cases hwriter
    | _ =>
      rw [hpc] at hended
      cases hended

/-! ### Runs in which no call fails -/

theorem sound_run {es : List Event} (h : (pipe_my_cat cfg).Run s es s')
    (hs : (pipe_my_cat cfg).Reachable s) (hsound : s.sound = true)
    (hes : ∀ e ∈ es, e.2 ≠ .failed ∧ e.2 ≠ .killed) : s'.sound = true := by
  induction h with
  | nil s => exact hsound
  | @cons s s₁ s₂ e es hstep _ ih =>
    refine ih (hs.step hstep) ?_ fun e he => hes e (List.mem_cons_of_mem _ he)
    by_cases he : e.2 = .interrupted
    · rw [interrupted_stays hstep he]
      exact hsound
    · obtain ⟨hfailed, hkilled⟩ := hes e List.mem_cons_self
      have hgood : e.2.good = true := by
        cases ha : e.2 with
        | ok | count => rfl
        | interrupted => exact absurd ha he
        | failed => exact absurd ha hfailed
        | killed => exact absurd ha hkilled
      exact (advances hs hstep he).2 hgood hsound

theorem ParentPc.eq_zero_of_sound {pc : ParentPc} (hended : pc.ended = true)
    (hsound : pc.sound = true) : pc = .exited 0 := by
  cases pc with
  | exited status =>
    cases status with
    | zero => rfl
    | succ => cases hsound
  | killed => cases hsound
  | _ => cases hended

theorem ChildPc.eq_zero_of_sound {pc : ChildPc} (hended : pc.ended = true)
    (hsound : pc.sound = true) : pc = .exited 0 := by
  cases pc with
  | exited status =>
    cases status with
    | zero => rfl
    | succ => cases hsound
  | killed => cases hsound
  | _ => cases hended

theorem not_loses {e : Event} (h : e.2 ≠ .failed ∧ e.2 ≠ .killed) (s : State) :
    loses s e = false := by
  obtain ⟨p, a⟩ := e
  cases a with
  | ok | count | interrupted => cases p <;> rfl
  | failed => exact absurd rfl h.1
  | killed => exact absurd rfl h.2

/-- **It ends**: besides the interrupted ones there are at most four calls for
    each byte of the input and eleven more. Where no call can return, the parent
    has ended and so has its child, if there is one; and if no call has failed,
    both have returned 0 and the input has been written. -/
theorem copy_ends (hcap : 0 < cfg.cap) {es : List Event}
    (h : (pipe_my_cat cfg).Run (init cfg) es s) :
    (es.countP fun e => e.2 != .interrupted) ≤ 4 * cfg.input.length + 11 ∧
    ((∀ e, granted e = true → ¬ (pipe_my_cat cfg).Enabled s e) →
      s.parent.ended = true ∧
      (s.child.ended = true ∨ s.child = .unborn ∧ s.parent = .exited 1) ∧
      ((∀ e ∈ es, e.2 ≠ .failed ∧ e.2 ≠ .killed) →
        s.parent = .exited 0 ∧ s.child = .exited 0 ∧ s.out = cfg.input)) := by
  have hinit : (pipe_my_cat cfg).Reachable (init cfg) := .init rfl
  have hreach := h.reachable hinit
  refine ⟨?_, fun hquiet => ?_⟩
  · have hpaid := System.Run.countP_le State.work (fun e => e.2 != .interrupted) ?_ h hinit
    · exact (Nat.le_add_right _ _).trans (hpaid.trans (work_init cfg))
    · intro s e s' hs hstep
      by_cases he : e.2 = .interrupted
      · simp [he, interrupted_stays hstep he]
      · simp only [bne_iff_ne, ne_eq, he, not_false_eq_true, if_true]
        exact (advances hs hstep he).1
  · obtain ⟨hparent, hchild⟩ := ended_of_quiet hcap hreach hquiet
    refine ⟨hparent, hchild, fun hes => ?_⟩
    have hsound := sound_run h hinit (by unfold init; cases cfg.file <;> rfl) hes
    obtain ⟨hp, hc⟩ := Bool.and_eq_true_iff.mp hsound
    have hzero := ParentPc.eq_zero_of_sound hparent hp
    have hended : s.child.ended = true := by
      rcases hchild with hended | ⟨_, hone⟩
      · exact hended
      · rw [hzero] at hone
        cases hone
    refine ⟨hzero, ChildPc.eq_zero_of_sound hended hc, ?_⟩
    have hguarded := h.restrict (G := fun s e => loses s e = false) fun e he => not_loses (hes e he)
    rcases kept (hguarded.reachable (.init rfl)) with hkilled | hkept
    · rw [hkilled] at hzero
      cases hzero
    · exact hkept.delivered hended

/-- Both bytes are written, with one interrupted call on the way. -/
theorem copy_ends_hi : ∃ es s, (pipe_my_cat hi).Run (init hi) es s ∧
    (es.countP fun e => e.2 != .interrupted) ≤ 19 ∧ s.parent = .exited 0 ∧ s.child = .exited 0 ∧
    s.out = [0x68, 0x69] := by
  have hrun : (System.replay (nextEvent hi) (init hi) (handOver ++ takeOver)).any (fun r =>
      decide ((∀ e ∈ r.2, e.2 ≠ .failed ∧ e.2 ≠ .killed) ∧ r.1.parent = .exited 0 ∧
        r.1.child = .exited 0)) = true := by
    decide
  obtain ⟨⟨s, es⟩, hs, hprop⟩ := (Option.any_eq_true _ _).mp hrun
  obtain ⟨hes, hparent, hchild⟩ := of_decide_eq_true hprop
  have h : (pipe_my_cat hi).Run (init hi) es s :=
    System.Run.of_replay (fun _ _ _ _ => step_of_nextEvent) hs
  obtain ⟨hcalls, hends⟩ := copy_ends (by decide) h
  have hquiet : ∀ e, granted e = true → ¬ (pipe_my_cat hi).Enabled s e := by
    intro e _ ⟨s', hstep⟩
    obtain ⟨p, a⟩ := e
    cases p with
    | parent =>
      change parent hi s a = some s' at hstep
      rw [parent, hparent] at hstep
      cases hstep
    | child =>
      change child s a = some s' at hstep
      rw [child, hchild] at hstep
      cases hstep
  obtain ⟨_, _, hdelivered⟩ := hends hquiet
  exact ⟨es, s, h, hcalls, hdelivered hes⟩

end PipeMyCat
