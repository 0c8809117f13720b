import OsLessons.PipeMyCat.Model

/-! # pipe_my_cat: what arrives

  `Along`: standard output, the child's buffer, the pipe, the parent's buffer
  and the unread input are the input, as far as both processes are in their
  loops. `delivered_unless_lost`: the exit status 0 tells the truth in exactly the runs
  in which no failing call leaves bytes behind.
-/

namespace PipeMyCat

open Lts

variable {cfg : Config} {s s' : State} {e : Event}

/-! ### What a step can do -/

/-- Before the pipe is used. -/
def ParentPc.early : ParentPc → Bool
  | .open | .pipe | .fork => true
  | _ => false

/-- There is no child yet, or there will be none. -/
def ParentPc.unforked : ParentPc → Bool
  | .open | .pipe | .fork | .exited (_ + 1) => true
  | _ => false

/-- The parent has left its loop, or has not come that far. -/
def ParentPc.past : ParentPc → Bool
  | .close | .returning | .exited _ | .killed => true
  | _ => false

/-- The child reads no more. -/
def ChildPc.past : ChildPc → Bool
  | .failing | .close | .exited _ | .killed => true
  | _ => false

@[simp] theorem ParentPc.left_write_all (left : Bytes) : (ParentPc.write_all left).left = left := by
  unfold write_all
  split
  · next h => exact h.symm
  · rfl

@[simp] theorem ParentPc.past_write_all (left : Bytes) :
    (ParentPc.write_all left).past = false := by
  unfold write_all
  split <;> rfl

@[simp] theorem ParentPc.unforked_write_all (left : Bytes) :
    (ParentPc.write_all left).unforked = false := by
  unfold write_all
  split <;> rfl

theorem ParentPc.left_eq_nil {pc : ParentPc} (h : ∀ left, pc ≠ .write left) : pc.left = [] := by
  cases pc with
  | write left => exact absurd rfl (h left)
  | _ => rfl

/-- What holds of the program points before the pipe is used. -/
theorem ParentPc.of_early {pc : ParentPc} (h : pc.early = true) :
    pc.unforked = true ∧ pc.past = false ∧ ∀ left, pc ≠ .write left := by
  cases pc with
  | «open» | pipe | fork => exact ⟨rfl, rfl, nofun⟩
  | _ => cases h

theorem ParentPc.ne_nil_of_write_all {left left' : Bytes}
    (h : ParentPc.write_all left = .write left') : left' ≠ [] := by
  unfold write_all at h
  split at h <;> cases h
  assumption

@[simp] theorem ChildPc.left_write_all (left : Bytes) : (ChildPc.write_all left).left = left := by
  unfold write_all
  split
  · next h => exact h.symm
  · rfl

@[simp] theorem ChildPc.past_write_all (left : Bytes) : (ChildPc.write_all left).past = false := by
  unfold write_all
  split <;> rfl

theorem ChildPc.left_eq_nil {pc : ChildPc} (h : ∀ left, pc ≠ .write left) : pc.left = [] := by
  cases pc with
  | write left => exact absurd rfl (h left)
  | _ => rfl

theorem ChildPc.ne_nil_of_write_all {left left' : Bytes}
    (h : ChildPc.write_all left = .write left') : left' ≠ [] := by
  unfold write_all at h
  split at h <;> cases h
  assumption

/-- Every step, with what it takes from one place and puts at the next. -/
inductive Step (cfg : Config) (s : State) : Event → State → Prop where
  | retry {p} : Step cfg s (p, .interrupted) s
  | setup {pc} (old : s.parent.early = true) (new : pc.early = true ∨ pc = .exited 1) {a} :
      Step cfg s (.parent, a) { s with parent := pc }
  | forked (old : s.parent = .fork) :
      Step cfg s (.parent, .ok) { s with parent := .closeReader, child := .closeWriter }
  | parentStart (old : s.parent = .closeReader) :
      Step cfg s (.parent, .ok) { s with parent := .read }
  | parentRead {n} (old : s.parent = .read) (le : n ≤ s.rest.length) :
      Step cfg s (.parent, .count n)
        { s with rest := s.rest.drop n, parent := .write_all (s.rest.take n) }
  | parentEof (old : s.parent = .read) (eof : s.rest = []) :
      Step cfg s (.parent, .count 0) { s with parent := .close }
  | parentReadFailed (old : s.parent = .read) :
      Step cfg s (.parent, .failed) { s with parent := .close }
  | parentWrite {left n} (old : s.parent = .write left) (pos : 0 < n) (le : n ≤ left.length)
      (reader : s.readerOpen = true) :
      Step cfg s (.parent, .count n)
        { s with pipe := s.pipe ++ left.take n, parent := .write_all (left.drop n) }
  | parentWriteFailed {left} (old : s.parent = .write left) :
      Step cfg s (.parent, .failed) { s with parent := .close }
  | parentKilled {left} (old : s.parent = .write left) (reader : s.readerOpen = false) :
      Step cfg s (.parent, .killed) { s with parent := .killed }
  | parentClose (old : s.parent = .close) :
      Step cfg s (.parent, .ok) { s with parent := .returning }
  | parentReturn (old : s.parent = .returning) :
      Step cfg s (.parent, .ok) { s with parent := .exited 0 }
  | childStart (old : s.child = .closeWriter) : Step cfg s (.child, .ok) { s with child := .read }
  | childRead {n} (old : s.child = .read) (le : n ≤ s.pipe.length) :
      Step cfg s (.child, .count n)
        { s with pipe := s.pipe.drop n, child := .write_all (s.pipe.take n) }
  | childEof (old : s.child = .read) (eof : s.pipe = []) (writer : s.writerOpen = false) :
      Step cfg s (.child, .count 0) { s with child := .close }
  | childReadFailed (old : s.child = .read) :
      Step cfg s (.child, .failed) { s with child := .failing }
  | childWrite {left n} (old : s.child = .write left) (pos : 0 < n) (le : n ≤ left.length) :
      Step cfg s (.child, .count n)
        { s with out := s.out ++ left.take n, child := .write_all (left.drop n) }
  | childWriteFailed {left} (old : s.child = .write left) :
      Step cfg s (.child, .failed) { s with child := .failing }
  | childKilled {left} (old : s.child = .write left) :
      Step cfg s (.child, .killed) { s with child := .killed }
  | childReturn {pc status} (old : s.child = pc) (at_ : pc = .failing ∨ pc = .close) :
      Step cfg s (.child, .ok) { s with child := .exited status }

theorem step_of_parentRead {a : Answer} (h : parentRead s a = some s') (old : s.parent = .read) :
    Step cfg s (.parent, a) s' := by
  cases a with
  | count n =>
    rw [parentRead] at h
    split at h
    · next hn =>
      subst hn
      split at h <;> cases h
      next heof => exact .parentEof old heof
    · split at h <;> cases h
      next hle => exact .parentRead old hle.2
  | interrupted =>
    cases h
    exact .retry
  | failed =>
    cases h
    exact .parentReadFailed old
  | ok | killed => cases h

theorem step_of_parentWrite {left : Bytes} {a : Answer} (h : parentWrite cfg s left a = some s')
    (old : s.parent = .write left) : Step cfg s (.parent, a) s' := by
  cases a with
  | count n =>
    rw [parentWrite] at h
    split at h <;> cases h
    next hroom => exact .parentWrite old hroom.2.1 hroom.2.2.1 hroom.1
  | interrupted =>
    cases h
    exact .retry
  | failed =>
    cases h
    exact .parentWriteFailed old
  | killed =>
    rw [parentWrite] at h
    split at h <;> cases h
    next hreader => exact .parentKilled old (Bool.eq_false_iff.mpr hreader)
  | ok => cases h

theorem step_of_childRead {a : Answer} (h : childRead s a = some s') (old : s.child = .read) :
    Step cfg s (.child, a) s' := by
  cases a with
  | count n =>
    rw [childRead] at h
    split at h
    · next hn =>
      subst hn
      split at h <;> cases h
      next heof => exact .childEof old heof.1 (Bool.eq_false_iff.mpr heof.2)
    · split at h <;> cases h
      next hle => exact .childRead old hle.2
  | interrupted =>
    cases h
    exact .retry
  | failed =>
    cases h
    exact .childReadFailed old
  | ok | killed => cases h

theorem step_of_childWrite {left : Bytes} {a : Answer} (h : childWrite s left a = some s')
    (old : s.child = .write left) : Step cfg s (.child, a) s' := by
  cases a with
  | count n =>
    rw [childWrite] at h
    split at h <;> cases h
    next hle => exact .childWrite old hle.1 hle.2
  | interrupted =>
    cases h
    exact .retry
  | failed =>
    cases h
    exact .childWriteFailed old
  | killed =>
    cases h
    exact .childKilled old
  | ok => cases h

theorem goOn_eq_some {a : Answer} {s₁ : State} (h : goOn s₁ a = some s') :
    a = .ok ∧ s' = s₁ := by
  cases a <;> cases h
  exact ⟨rfl, rfl⟩

theorem setup_eq_some {a : Answer} {s₁ : State} (h : setup s s₁ a = some s') :
    (a = .ok ∧ s' = s₁) ∨ s' = { s with parent := .exited 1 } := by
  cases a <;> cases h
  · exact .inl ⟨rfl, rfl⟩
  · exact .inr rfl

theorem step_of_next (h : next cfg s e = some s') : Step cfg s e s' := by
  obtain ⟨p, a⟩ := e
  cases p with
  | parent =>
    change parent cfg s a = some s' at h
    cases old : s.parent with
    | read =>
      rw [parent, old] at h
      exact step_of_parentRead h old
    | write left =>
      rw [parent, old] at h
      exact step_of_parentWrite h old
    | «open» | pipe =>
      rw [parent, old] at h
      obtain ⟨rfl, rfl⟩ | rfl := setup_eq_some h
      · exact .setup (by rw [old]; rfl) (.inl rfl)
      · exact .setup (by rw [old]; rfl) (.inr rfl)
    | fork =>
      rw [parent, old] at h
      obtain ⟨rfl, rfl⟩ | rfl := setup_eq_some h
      · exact .forked old
      · exact .setup (by rw [old]; rfl) (.inr rfl)
    | closeReader =>
      rw [parent, old] at h
      obtain ⟨rfl, rfl⟩ := goOn_eq_some h
      exact .parentStart old
    | close =>
      rw [parent, old] at h
      obtain ⟨rfl, rfl⟩ := goOn_eq_some h
      exact .parentClose old
    | returning =>
      rw [parent, old] at h
      obtain ⟨rfl, rfl⟩ := goOn_eq_some h
      exact .parentReturn old
    | exited | killed =>
      rw [parent, old] at h
      cases h
  | child =>
    change child s a = some s' at h
    cases old : s.child with
    | read =>
      rw [child, old] at h
      exact step_of_childRead h old
    | write left =>
      rw [child, old] at h
      exact step_of_childWrite h old
    | closeWriter =>
      rw [child, old] at h
      obtain ⟨rfl, rfl⟩ := goOn_eq_some h
      exact .childStart old
    | failing =>
      rw [child, old] at h
      obtain ⟨rfl, rfl⟩ := goOn_eq_some h
      exact .childReturn old (.inl rfl)
    | close =>
      rw [child, old] at h
      obtain ⟨rfl, rfl⟩ := goOn_eq_some h
      exact .childReturn old (.inr rfl)
    | unborn | exited | killed =>
      rw [child, old] at h
      cases h

/-! ### On the way -/

theorem take_drop_append (n : ℕ) (l t : Bytes) : l.take n ++ (l.drop n ++ t) = l ++ t := by
  rw [← List.append_assoc, List.take_append_drop]

/-- The bytes between the input and standard output. -/
def State.onTheWay (s : State) : Bytes := s.child.left ++ s.pipe ++ s.parent.left ++ s.rest

/-! A call that moves bytes on keeps their order. -/

section flow
variable {left : Bytes}

theorem flow_parentRead (old : s.parent = .read) (n : ℕ) :
    State.onTheWay { s with rest := s.rest.drop n, parent := .write_all (s.rest.take n) } =
      s.onTheWay := by
  have hleft : s.parent.left = [] := by rw [old]; rfl
  simp only [State.onTheWay, ParentPc.left_write_all, hleft, List.append_nil, List.append_assoc,
    List.take_append_drop]

theorem flow_parentWrite (old : s.parent = .write left) (n : ℕ) :
    State.onTheWay
        { s with pipe := s.pipe ++ left.take n, parent := .write_all (left.drop n) } =
      s.onTheWay := by
  have hleft : s.parent.left = left := by rw [old]; rfl
  simp only [State.onTheWay, ParentPc.left_write_all, hleft, List.append_assoc, take_drop_append]

theorem flow_childRead (old : s.child = .read) (n : ℕ) :
    State.onTheWay { s with pipe := s.pipe.drop n, child := .write_all (s.pipe.take n) } =
      s.onTheWay := by
  have hleft : s.child.left = [] := by rw [old]; rfl
  simp only [State.onTheWay, ChildPc.left_write_all, hleft, List.nil_append, List.append_assoc,
    take_drop_append]

theorem flow_childWrite (old : s.child = .write left) (n : ℕ) :
    s.out ++ left.take n ++
        State.onTheWay { s with out := s.out ++ left.take n, child := .write_all (left.drop n) } =
      s.out ++ s.onTheWay := by
  have hleft : s.child.left = left := by rw [old]; rfl
  simp only [State.onTheWay, ChildPc.left_write_all, hleft, List.append_assoc, take_drop_append]

end flow

/-- Nothing is made up or comes twice, and as long as both loops run nothing is
    missing. -/
structure Along (cfg : Config) (s : State) : Prop where
  unborn : s.parent.unforked = true → s.child = .unborn
  parent_left : ∀ left, s.parent = .write left → left ≠ []
  child_left : ∀ left, s.child = .write left → left ≠ []
  length : s.out.length + s.onTheWay.length ≤ cfg.input.length
  out : s.out <+: cfg.input
  through : s.child.past = false → s.out ++ (s.child.left ++ s.pipe) <+: cfg.input
  whole : s.child.past = false → s.parent.past = false → s.out ++ s.onTheWay = cfg.input

theorem along_init (cfg : Config) : Along cfg (init cfg) := by
  have hleft : (init cfg).parent.left = [] := by
    unfold init
    split <;> rfl
  have hway : (init cfg).onTheWay = cfg.input := by
    rw [State.onTheWay, hleft]
    rfl
  refine ⟨fun _ => rfl, fun left h => ?_, nofun, ?_, List.nil_prefix, fun _ => List.nil_prefix,
    fun _ _ => hway⟩
  · unfold init at h
    dsimp only at h
    split at h <;> cases h
  · rw [hway]
    exact (Nat.zero_add _).le

/-- The parent goes on without touching a byte. -/
theorem Along.parent_moves (h : Along cfg s) {pc : ParentPc}
    (hunforked : pc.unforked = true → s.child = .unborn) (hwrite : ∀ left, pc ≠ .write left)
    (hpast : pc.past = false → s.parent.past = false ∧ s.parent.left = []) :
    Along cfg { s with parent := pc } where
  unborn := hunforked
  parent_left left hpc := absurd hpc (hwrite left)
  child_left := h.child_left
  length := by
    have hlen := h.length
    have hleft := ParentPc.left_eq_nil hwrite
    simp only [State.onTheWay, List.length_append, hleft, List.length_nil] at hlen ⊢
    omega
  out := h.out
  through := h.through
  whole hchild hparent := by
    obtain ⟨hold, hold'⟩ := hpast hparent
    have hwhole := h.whole hchild hold
    rw [State.onTheWay, hold'] at hwhole
    change s.out ++ (s.child.left ++ s.pipe ++ pc.left ++ s.rest) = _
    rw [ParentPc.left_eq_nil hwrite, hwhole]

/-- The child goes on without touching a byte. -/
theorem Along.child_moves (h : Along cfg s) {pc : ChildPc} (hborn : s.child ≠ .unborn)
    (hwrite : ∀ left, pc ≠ .write left)
    (hpast : pc.past = false → s.child.past = false ∧ s.child.left = []) :
    Along cfg { s with child := pc } where
  unborn hun := absurd (h.unborn hun) hborn
  parent_left := h.parent_left
  child_left left hpc := absurd hpc (hwrite left)
  length := by
    have hlen := h.length
    have hleft := ChildPc.left_eq_nil hwrite
    simp only [State.onTheWay, List.length_append, hleft, List.length_nil] at hlen ⊢
    omega
  out := h.out
  through hchild := by
    obtain ⟨hold, hold'⟩ := hpast hchild
    have hthrough := h.through hold
    rw [hold'] at hthrough
    change s.out ++ (pc.left ++ s.pipe) <+: _
    rwa [ChildPc.left_eq_nil hwrite]
  whole hchild hparent := by
    obtain ⟨hold, hold'⟩ := hpast hchild
    have hwhole := h.whole hold hparent
    rw [State.onTheWay, hold'] at hwhole
    change s.out ++ (pc.left ++ s.pipe ++ s.parent.left ++ s.rest) = _
    rw [ChildPc.left_eq_nil hwrite, hwhole]

/-- Bytes move on, and both processes stay in their loops or behind them. -/
theorem Along.flows (h : Along cfg s) (hflow : s'.out ++ s'.onTheWay = s.out ++ s.onTheWay)
    (hparent : s'.parent.past = s.parent.past) (hchild : s'.child.past = s.child.past)
    (hunborn : s'.parent.unforked = true → s'.child = .unborn)
    (hparent_left : ∀ left, s'.parent = .write left → left ≠ [])
    (hchild_left : ∀ left, s'.child = .write left → left ≠ [])
    (hout : s'.out <+: cfg.input)
    (hthrough : s.child.past = false → s'.out ++ (s'.child.left ++ s'.pipe) <+: cfg.input) :
    Along cfg s' where
  unborn := hunborn
  parent_left := hparent_left
  child_left := hchild_left
  length := by
    have hlen := congrArg List.length hflow
    rw [List.length_append, List.length_append] at hlen
    rw [hlen]
    exact h.length
  out := hout
  through hc := hthrough (hchild ▸ hc)
  whole hc hp := hflow.trans (h.whole (hchild ▸ hc) (hparent ▸ hp))

theorem Along.sets_up (h : Along cfg s) {pc : ParentPc} (old : s.parent.early = true)
    (new : pc.early = true ∨ pc = .exited 1) : Along cfg { s with parent := pc } := by
  obtain ⟨hunforked, hpast, hwrite⟩ := ParentPc.of_early old
  have hleft := ParentPc.left_eq_nil hwrite
  refine h.parent_moves (fun _ => h.unborn hunforked) ?_ fun _ => ⟨hpast, hleft⟩
  rcases new with hearly | rfl
  · exact (ParentPc.of_early hearly).2.2
  · exact nofun

theorem Along.forks (h : Along cfg s) (old : s.parent = .fork) :
    Along cfg { s with parent := .closeReader, child := .closeWriter } := by
  have hunborn : s.child = .unborn := h.unborn (by rw [old]; rfl)
  refine h.flows ?_ ?_ ?_ nofun nofun nofun h.out ?_
  · simp only [State.onTheWay, old, hunborn]
    rfl
  · rw [old]
    rfl
  · rw [hunborn]
    rfl
  · intro hpast
    have hthrough := h.through hpast
    rwa [hunborn] at hthrough

theorem Along.parent_reads (h : Along cfg s) (old : s.parent = .read) (n : ℕ) :
    Along cfg { s with rest := s.rest.drop n, parent := .write_all (s.rest.take n) } := by
  refine h.flows (congrArg (s.out ++ ·) (flow_parentRead old n)) ?_ rfl ?_
    (fun left => ParentPc.ne_nil_of_write_all) h.child_left h.out h.through
  · exact (ParentPc.past_write_all _).trans (by rw [old]; rfl)
  · simp

theorem Along.parent_writes (h : Along cfg s) {left : Bytes} (old : s.parent = .write left)
    (n : ℕ) :
    Along cfg { s with pipe := s.pipe ++ left.take n, parent := .write_all (left.drop n) } := by
  refine h.flows (congrArg (s.out ++ ·) (flow_parentWrite old n)) ?_ rfl ?_
    (fun left => ParentPc.ne_nil_of_write_all) h.child_left h.out ?_
  · exact (ParentPc.past_write_all _).trans (by rw [old]; rfl)
  · simp
  · intro hpast
    have hwhole := h.whole hpast (by rw [old]; rfl)
    rw [State.onTheWay, old] at hwhole
    refine ⟨left.drop n ++ s.rest, ?_⟩
    rw [← hwhole]
    show _ = s.out ++ (s.child.left ++ s.pipe ++ left ++ s.rest)
    simp only [List.append_assoc, take_drop_append]

/-- A child that reads or writes has been born. -/
theorem Along.born (h : Along cfg s) {pc : ChildPc} (hborn : s.child ≠ .unborn)
    (hunforked : s.parent.unforked = true) : pc = .unborn :=
  absurd (h.unborn hunforked) hborn

theorem Along.child_reads (h : Along cfg s) (old : s.child = .read) (n : ℕ) :
    Along cfg { s with pipe := s.pipe.drop n, child := .write_all (s.pipe.take n) } := by
  refine h.flows (congrArg (s.out ++ ·) (flow_childRead old n)) rfl ?_
    (h.born (by rw [old]; exact nofun)) h.parent_left
    (fun left => ChildPc.ne_nil_of_write_all) h.out ?_
  · exact (ChildPc.past_write_all _).trans (by rw [old]; rfl)
  · intro hpast
    have hthrough := h.through hpast
    rw [old] at hthrough
    rwa [ChildPc.left_write_all, List.take_append_drop]

theorem Along.child_writes (h : Along cfg s) {left : Bytes} (old : s.child = .write left) (n : ℕ) :
    Along cfg { s with out := s.out ++ left.take n, child := .write_all (left.drop n) } := by
  have hthrough := h.through (by rw [old]; rfl)
  rw [old] at hthrough
  have hsame : s.out ++ left.take n ++ (left.drop n ++ s.pipe) = s.out ++ (left ++ s.pipe) := by
    simp only [List.append_assoc, take_drop_append]
  refine h.flows (flow_childWrite old n) rfl ?_ (h.born (by rw [old]; exact nofun)) h.parent_left
    (fun left => ChildPc.ne_nil_of_write_all) ?_ ?_
  · exact (ChildPc.past_write_all _).trans (by rw [old]; rfl)
  · exact (hsame ▸ List.prefix_append _ _).trans hthrough
  · intro _
    rw [ChildPc.left_write_all, hsame]
    exact hthrough

theorem Along.step (h : Along cfg s) (hs : Step cfg s e s') : Along cfg s' := by
  cases hs with
  | retry => exact h
  | setup old new => exact h.sets_up old new
  | forked old => exact h.forks old
  | parentStart old =>
    exact h.parent_moves nofun nofun fun _ => by rw [old]; exact ⟨rfl, rfl⟩
  | @parentRead n old le => exact h.parent_reads old n
  | parentEof old _ | parentReadFailed old | parentWriteFailed old | parentKilled old _ =>
    exact h.parent_moves nofun nofun nofun
  | @parentWrite left n old pos le reader => exact h.parent_writes old n
  | parentClose old | parentReturn old => exact h.parent_moves nofun nofun nofun
  | childStart old =>
    refine h.child_moves (by rw [old]; exact nofun) nofun fun _ => by rw [old]; exact ⟨rfl, rfl⟩
  | @childRead n old le => exact h.child_reads old n
  | childEof old _ _ | childReadFailed old | childWriteFailed old | childKilled old =>
    exact h.child_moves (by rw [old]; exact nofun) nofun nofun
  | @childWrite left n old pos le => exact h.child_writes old n
  | childReturn old at_ =>
    refine h.child_moves ?_ nofun nofun
    rw [old]
    rcases at_ with rfl | rfl <;> exact nofun

theorem along (h : (pipe_my_cat cfg).Reachable s) : Along cfg s := by
  apply System.invariant _ _ h
  · rintro s rfl
    exact along_init cfg
  · exact fun s e s' hs hstep => hs.step (step_of_next hstep)

/-! ### Nothing lost -/

/-- The parent has left its loop and returns 0, or has returned 0. -/
def ParentPc.done : ParentPc → Bool
  | .close | .returning | .exited 0 => true
  | _ => false

/-- Without a loss the bytes of the input are all there, and a process that has
    left its loop has left nothing behind. -/
structure Kept (cfg : Config) (s : State) : Prop where
  flow : s.out ++ s.onTheWay = cfg.input
  parent : s.parent.done = true → s.rest = []
  child : s.child.past = true → s.pipe = [] ∧ s.parent.left = [] ∧ s.rest = []

theorem kept_init (cfg : Config) : Kept cfg (init cfg) := by
  refine ⟨?_, ?_, nofun⟩
  · unfold init State.onTheWay
    dsimp only
    split <;> rfl
  · unfold init
    dsimp only
    split <;> exact nofun

/-- A parent that does not hold the pipe open for writing has not got a child,
    has left its loop, or has been killed. -/
theorem writer_closed (h : s.writerOpen = false) :
    s.parent.unforked = true ∨ s.parent.done = true ∨ s.parent = .killed := by
  unfold State.writerOpen at h
  cases hpc : s.parent with
  | «open» | pipe | fork => exact .inl rfl
  | returning => exact .inr (.inl rfl)
  | exited n =>
    cases n with
    | zero => exact .inr (.inl rfl)
    | succ n => exact .inl rfl
  | killed => exact .inr (.inr rfl)
  | closeReader | read | write | close =>
    rw [hpc] at h
    cases h

theorem ParentPc.left_of_done {pc : ParentPc} (h : pc.done = true) : pc.left = [] := by
  cases pc with
  | write left => cases h
  | _ => rfl

theorem ParentPc.done_of_early {pc : ParentPc} (h : pc.early = true) : pc.done = false := by
  cases pc with
  | «open» | pipe | fork => rfl
  | _ => cases h

theorem ParentPc.not_done_write_all (left : Bytes) : (ParentPc.write_all left).done = false := by
  unfold write_all
  split <;> rfl

/-- The parent goes on without touching a byte. -/
theorem Kept.parent_moves (h : Kept cfg s) {pc : ParentPc} (hleft : s.parent.left = [])
    (hwrite : ∀ left, pc ≠ .write left) (hrest : pc.done = true → s.rest = []) :
    Kept cfg { s with parent := pc } where
  flow := by
    have hflow := h.flow
    rw [State.onTheWay, hleft] at hflow
    change s.out ++ (s.child.left ++ s.pipe ++ pc.left ++ s.rest) = _
    rw [ParentPc.left_eq_nil hwrite, hflow]
  parent := hrest
  child hpast := ⟨(h.child hpast).1, ParentPc.left_eq_nil hwrite, (h.child hpast).2.2⟩

/-- The child goes on without touching a byte. -/
theorem Kept.child_moves (h : Kept cfg s) {pc : ChildPc} (hleft : s.child.left = [])
    (hwrite : ∀ left, pc ≠ .write left)
    (hnone : pc.past = true → s.pipe = [] ∧ s.parent.left = [] ∧ s.rest = []) :
    Kept cfg { s with child := pc } where
  flow := by
    have hflow := h.flow
    rw [State.onTheWay, hleft] at hflow
    change s.out ++ (pc.left ++ s.pipe ++ s.parent.left ++ s.rest) = _
    rw [ChildPc.left_eq_nil hwrite, hflow]
  parent := h.parent
  child := hnone

/-- The parent begins, or gives up before it has a child. -/
theorem Kept.sets_up (h : Kept cfg s) {pc : ParentPc} (old : s.parent.early = true)
    (new : pc.early = true ∨ pc = .exited 1) : Kept cfg { s with parent := pc } := by
  refine h.parent_moves (ParentPc.left_eq_nil (ParentPc.of_early old).2.2) ?_ ?_
  · rcases new with hearly | rfl
    · exact (ParentPc.of_early hearly).2.2
    · exact nofun
  · rcases new with hearly | rfl
    · intro hdone
      rw [ParentPc.done_of_early hearly] at hdone
      cases hdone
    · exact nofun

theorem Kept.parent_reads (h : Kept cfg s) (old : s.parent = .read) (n : ℕ) :
    Kept cfg { s with rest := s.rest.drop n, parent := .write_all (s.rest.take n) } := by
  refine ⟨(congrArg (s.out ++ ·) (flow_parentRead old n)).trans h.flow, fun hdone => ?_,
    fun hpast => ?_⟩
  · rw [ParentPc.not_done_write_all] at hdone
    cases hdone
  · obtain ⟨hpipe, _, hrest⟩ := h.child hpast
    refine ⟨hpipe, ?_, ?_⟩
    · rw [ParentPc.left_write_all, hrest, List.take_nil]
    · change s.rest.drop n = []
      rw [hrest, List.drop_nil]

theorem Kept.parent_writes (h : Kept cfg s) {left : Bytes} {n : ℕ} (old : s.parent = .write left)
    (pos : 0 < n) (le : n ≤ left.length) :
    Kept cfg { s with pipe := s.pipe ++ left.take n, parent := .write_all (left.drop n) } := by
  refine ⟨(congrArg (s.out ++ ·) (flow_parentWrite old n)).trans h.flow, fun hdone => ?_,
    fun hpast => ?_⟩
  · rw [ParentPc.not_done_write_all] at hdone
    cases hdone
  · -- a child that reads no more has left nothing to write
    have hnil := (h.child hpast).2.1
    rw [old] at hnil
    rw [show left = [] from hnil] at le
    exact absurd pos (Nat.not_lt.mpr le)

theorem Kept.child_reads (h : Kept cfg s) (old : s.child = .read) (n : ℕ) :
    Kept cfg { s with pipe := s.pipe.drop n, child := .write_all (s.pipe.take n) } := by
  refine ⟨(congrArg (s.out ++ ·) (flow_childRead old n)).trans h.flow, h.parent, fun hpast => ?_⟩
  rw [ChildPc.past_write_all] at hpast
  cases hpast

theorem Kept.child_writes (h : Kept cfg s) {left : Bytes} (old : s.child = .write left) (n : ℕ) :
    Kept cfg { s with out := s.out ++ left.take n, child := .write_all (left.drop n) } := by
  refine ⟨(flow_childWrite old n).trans h.flow, h.parent, fun hpast => ?_⟩
  rw [ChildPc.past_write_all] at hpast
  cases hpast

/-- The child finds the end: the parent has left its loop, or it has been killed. -/
theorem Kept.child_ends (halong : Along cfg s) (h : Kept cfg s) (old : s.child = .read)
    (eof : s.pipe = []) (writer : s.writerOpen = false) :
    s.parent = .killed ∨ Kept cfg { s with child := .close } := by
  rcases writer_closed writer with hunforked | hdone | hkilled
  · have hunborn := halong.unborn hunforked
    rw [old] at hunborn
    cases hunborn
  · refine .inr (h.child_moves (by rw [old]; rfl) nofun fun _ => ?_)
    exact ⟨eof, ParentPc.left_of_done hdone, h.parent hdone⟩
  · exact .inl hkilled

theorem Kept.step (halong : Along cfg s) (h : Kept cfg s) (hloses : loses s e = false)
    (hs : Step cfg s e s') : s'.parent = .killed ∨ Kept cfg s' := by
  cases hs with
  | retry => exact .inr h
  | setup old new => exact .inr (h.sets_up old new)
  | forked old =>
    have hunborn : s.child = .unborn := halong.unborn (by rw [old]; rfl)
    have hflow := h.flow
    rw [State.onTheWay, old, hunborn] at hflow
    exact .inr ⟨hflow, nofun, nofun⟩
  | parentStart old =>
    exact .inr (h.parent_moves (by rw [old]; rfl) nofun nofun)
  | @parentRead n old le => exact .inr (h.parent_reads old n)
  | parentEof old eof => exact .inr (h.parent_moves (by rw [old]; rfl) nofun fun _ => eof)
  | parentReadFailed old =>
    refine .inr (h.parent_moves (by rw [old]; rfl) nofun fun _ => ?_)
    rw [loses, old] at hloses
    simpa using hloses
  | parentWrite old pos le reader => exact .inr (h.parent_writes old pos le)
  | parentWriteFailed old =>
    rw [loses, old] at hloses
    cases hloses
  | parentKilled old _ => exact .inl rfl
  | parentClose old | parentReturn old =>
    exact .inr (h.parent_moves (by rw [old]; rfl) nofun fun _ => h.parent (by rw [old]; rfl))
  | childStart old => exact .inr (h.child_moves (by rw [old]; rfl) nofun nofun)
  | @childRead n old le => exact .inr (h.child_reads old n)
  | childEof old eof writer => exact Kept.child_ends (s := s) halong h old eof writer
  | childReadFailed old =>
    refine .inr (h.child_moves (by rw [old]; rfl) nofun fun _ => ?_)
    rw [loses, old] at hloses
    simpa [and_assoc] using hloses
  | @childWrite left n old pos le => exact .inr (h.child_writes old n)
  | childWriteFailed old =>
    rw [loses, old] at hloses
    cases hloses
  | childKilled old => cases hloses
  | @childReturn pc status old at_ =>
    have hpast : s.child.past = true := by
      rw [old]
      rcases at_ with rfl | rfl <;> rfl
    refine .inr (h.child_moves ?_ nofun fun _ => h.child hpast)
    rw [old]
    rcases at_ with rfl | rfl <;> rfl

theorem killed_step (h : s.parent = .killed) (hs : Step cfg s e s') : s'.parent = .killed := by
  cases hs with
  | retry | childStart | childRead | childEof | childReadFailed | childWrite | childWriteFailed
  | childKilled | childReturn => exact h
  | parentKilled => rfl
  | setup old | forked old | parentStart old | parentRead old | parentEof old
  | parentReadFailed old | parentWrite old | parentWriteFailed old | parentClose old
  | parentReturn old =>
    rw [h] at old
    cases old

/-- Guarded by `loses`, the parent is killed or nothing is lost. -/
theorem kept (h : ((pipe_my_cat cfg).restrict fun s e => loses s e = false).Reachable s) :
    s.parent = .killed ∨ Kept cfg s := by
  refine System.invariant_of (I := fun s => s.parent = .killed ∨ Kept cfg s)
    (fun s hs => along hs.of_restrict) ?_ ?_ h
  · rintro s rfl
    exact .inr (kept_init cfg)
  · intro s e s' halong hkept ⟨hloses, hstep⟩
    rcases hkept with hkilled | hkept
    · exact .inl (killed_step hkilled (step_of_next hstep))
    · exact hkept.step halong hloses (step_of_next hstep)

/-! ### Something lost -/

/-- The parent puts nothing more into the pipe. -/
def ShortOfPipe (cfg : Config) (s : State) : Prop :=
  s.parent.past = true ∧ s.parent.unforked = false ∧
    s.out.length + (s.child.left.length + s.pipe.length) < cfg.input.length

/-- The child writes nothing more. -/
def ShortOfOutput (cfg : Config) (s : State) : Prop :=
  s.child.past = true ∧ s.out.length < cfg.input.length

/-- There are bytes that never reach standard output. -/
def Short (cfg : Config) (s : State) : Prop := ShortOfPipe cfg s ∨ ShortOfOutput cfg s

theorem length_onTheWay (s : State) :
    s.onTheWay.length =
      s.child.left.length + s.pipe.length + s.parent.left.length + s.rest.length := by
  simp only [State.onTheWay, List.length_append]

/-- A failing call that leaves bytes behind makes the output short. -/
theorem Along.short (h : Along cfg s) (hloses : loses s e = true) (hs : Step cfg s e s') :
    Short cfg s' := by
  have hlen := h.length
  rw [length_onTheWay] at hlen
  cases hs with
  | @retry p => cases p <;> cases hloses
  | @setup pc old new a =>
    cases a with
    | failed =>
      cases hpc : s.parent with
      | «open» | pipe | fork =>
        rw [loses, hpc] at hloses
        cases hloses
      | _ =>
        rw [hpc] at old
        cases old
    | _ => cases hloses
  | parentReadFailed old =>
    rw [loses, old, bne_iff_ne] at hloses
    have hpos : 0 < s.rest.length := List.length_pos_iff.mpr hloses
    refine .inl ⟨rfl, rfl, ?_⟩
    change s.out.length + (s.child.left.length + s.pipe.length) < _
    omega
  | @parentWriteFailed left old =>
    have hpos : 0 < s.parent.left.length := by
      rw [old]
      exact List.length_pos_iff.mpr (h.parent_left left old)
    refine .inl ⟨rfl, rfl, ?_⟩
    change s.out.length + (s.child.left.length + s.pipe.length) < _
    omega
  | childReadFailed old =>
    rw [loses, old, bne_iff_ne] at hloses
    have hpos := List.length_pos_iff.mpr hloses
    rw [List.length_append, List.length_append] at hpos
    refine .inr ⟨rfl, ?_⟩
    change s.out.length < _
    omega
  | @childWriteFailed left old | @childKilled left old =>
    have hpos : 0 < s.child.left.length := by
      rw [old]
      exact List.length_pos_iff.mpr (h.child_left left old)
    refine .inr ⟨rfl, ?_⟩
    change s.out.length < _
    omega
  | forked | parentStart | parentRead | parentEof | parentWrite | parentKilled | parentClose
  | parentReturn | childStart | childRead | childEof | childWrite | childReturn => cases hloses

theorem ShortOfPipe.step (h : ShortOfPipe cfg s) (hs : Step cfg s e s') : ShortOfPipe cfg s' := by
  obtain ⟨hpast, hforked, hlt⟩ := h
  cases hs with
  | retry => exact ⟨hpast, hforked, hlt⟩
  | setup old =>
    rw [(ParentPc.of_early old).1] at hforked
    cases hforked
  | forked old | parentStart old | parentRead old | parentEof old | parentReadFailed old
  | parentWrite old | parentWriteFailed old | parentKilled old =>
    rw [old] at hpast
    cases hpast
  | parentClose old | parentReturn old => exact ⟨rfl, rfl, hlt⟩
  | childStart old | childEof old | childReadFailed old =>
    rw [old] at hlt
    exact ⟨hpast, hforked, hlt⟩
  | @childRead n old le =>
    refine ⟨hpast, hforked, ?_⟩
    change s.out.length + ((ChildPc.write_all _).left.length + (s.pipe.drop n).length) < _
    rw [ChildPc.left_write_all, List.length_take_of_le le, List.length_drop,
      Nat.add_sub_cancel' le]
    omega
  | @childWrite left n old pos le =>
    have hleft : s.child.left = left := by
      rw [old]
      rfl
    rw [hleft] at hlt
    refine ⟨hpast, hforked, ?_⟩
    change (s.out ++ left.take n).length + ((ChildPc.write_all _).left.length + s.pipe.length) < _
    rw [ChildPc.left_write_all, List.length_append, List.length_take_of_le le, List.length_drop]
    omega
  | childWriteFailed old | childKilled old =>
    refine ⟨hpast, hforked, ?_⟩
    change s.out.length + (0 + s.pipe.length) < _
    omega
  | @childReturn pc status old at_ =>
    refine ⟨hpast, hforked, ?_⟩
    change s.out.length + (0 + s.pipe.length) < _
    omega

theorem ShortOfOutput.step (halong : Along cfg s) (h : ShortOfOutput cfg s)
    (hs : Step cfg s e s') : ShortOfOutput cfg s' := by
  obtain ⟨hpast, hlt⟩ := h
  cases hs with
  | retry | setup | parentStart | parentRead | parentEof | parentReadFailed | parentWrite
  | parentWriteFailed | parentKilled | parentClose | parentReturn => exact ⟨hpast, hlt⟩
  | forked old =>
    rw [halong.unborn (by rw [old]; rfl)] at hpast
    cases hpast
  | childStart old | childRead old | childEof old | childReadFailed old | childWrite old
  | childWriteFailed old | childKilled old =>
    rw [old] at hpast
    cases hpast
  | childReturn old at_ => exact ⟨rfl, hlt⟩

theorem Short.run (hs : (pipe_my_cat cfg).Reachable s) (h : Short cfg s) {es : List Event}
    (hrun : (pipe_my_cat cfg).Run s es s') : Short cfg s' := by
  induction hrun with
  | nil s => exact h
  | cons hstep _ ih =>
    have hdone := step_of_next hstep
    refine ih (hs.step hstep) ?_
    exact h.imp (fun h => h.step hdone) fun h => h.step (along hs) hdone

/-! ### The exit status -/

theorem ChildPc.of_ended {pc : ChildPc} (h : pc.ended = true) : pc.past = true ∧ pc.left = [] := by
  cases pc with
  | exited | killed => exact ⟨rfl, rfl⟩
  | _ => cases h

theorem Kept.delivered (h : Kept cfg s) (hended : s.child.ended = true) : s.out = cfg.input := by
  obtain ⟨hpast, hleft⟩ := ChildPc.of_ended hended
  obtain ⟨hpipe, hparent, hrest⟩ := h.child hpast
  have hflow := h.flow
  rwa [State.onTheWay, hleft, hpipe, hparent, hrest, List.append_nil, List.append_nil,
    List.append_nil, List.append_nil] at hflow

theorem Short.not_delivered (h : Short cfg s) : s.out ≠ cfg.input := by
  intro heq
  rcases h with ⟨_, _, hlt⟩ | ⟨_, hlt⟩
  · rw [heq] at hlt
    omega
  · rw [heq] at hlt
    exact lt_irrefl _ hlt

/-- **The exit status**: standard output is always a prefix of the input. If no
    call fails with bytes still to go through it, the exit status 0 of the
    parent and the end of the child mean that the whole input has been written;
    behind a call that fails like that it never is. -/
theorem delivered_unless_lost (cfg : Config) :
    (∀ s, (pipe_my_cat cfg).Reachable s → s.out <+: cfg.input) ∧
    (∀ s, ((pipe_my_cat cfg).restrict fun s e => loses s e = false).Reachable s →
      s.parent = .exited 0 → s.child.ended = true → s.out = cfg.input) ∧
    ∀ s e s' es s'', (pipe_my_cat cfg).Reachable s → loses s e = true →
      (pipe_my_cat cfg).step s e s' → (pipe_my_cat cfg).Run s' es s'' → s''.out ≠ cfg.input := by
  refine ⟨fun s hs => (along hs).out, ?_, ?_⟩
  · intro s hs hparent hended
    rcases kept hs with hkilled | hkept
    · rw [hkilled] at hparent
      cases hparent
    · exact hkept.delivered hended
  · intro s e s' es s'' hs hloses hstep hrun
    have hshort := (along hs).short hloses (step_of_next hstep)
    exact (Short.run (hs.step hstep) hshort hrun).not_delivered

/-! ### Two runs -/

/-- `hi` on standard input -/
def hi : Config := { file := false, input := [0x68, 0x69], cap := 4 }

/-- The parent hands both bytes over and returns. -/
def handOver : List Event :=
  [(.parent, .ok), (.parent, .ok), (.parent, .ok), (.parent, .count 2), (.parent, .interrupted),
    (.parent, .count 2), (.parent, .count 0), (.parent, .ok), (.parent, .ok)]

/-- The child writes one byte after the other. -/
def takeOver : List Event :=
  [(.child, .ok), (.child, .count 2), (.child, .count 1), (.child, .count 1), (.child, .count 0),
    (.child, .ok)]

/-- The child reads both bytes and cannot write them. -/
def giveUp : List Event := [(.child, .ok), (.child, .count 2), (.child, .failed), (.child, .ok)]

def nextEvent (cfg : Config) (s : State) (e : Event) : Option (State × Event) :=
  (next cfg s e).map (·, e)

theorem step_of_nextEvent {e' : Event} (h : nextEvent cfg s e = some (s', e')) :
    (pipe_my_cat cfg).step s e' s' := by
  obtain ⟨s₁, hnext, heq⟩ := Option.map_eq_some_iff.mp h
  cases heq
  exact hnext

/-- Both bytes are written, and the exit status is 0. -/
theorem delivered_hi :
    ∃ s, ((pipe_my_cat hi).restrict fun s e => loses s e = false).Reachable s ∧
      s.parent = .exited 0 ∧ s.child.ended = true ∧ s.out = [0x68, 0x69] := by
  have hrun : (System.replayIf (nextEvent hi) (fun s e => !loses s e) (init hi)
      (handOver ++ takeOver)).any (fun s => s.parent == .exited 0 && s.child.ended) = true := by
    decide
  obtain ⟨s, hs, hprop⟩ := (Option.any_eq_true _ _).mp hrun
  simp only [Bool.and_eq_true, beq_iff_eq] at hprop
  have hinit : ((pipe_my_cat hi).restrict fun s e => loses s e = false).Reachable (init hi) :=
    .init rfl
  have hguard : ∀ s e, (!loses s e) = true → loses s e = false := by
    intro s e h
    simpa using h
  have hreach := System.Reachable.of_replayIf (fun _ _ _ _ => step_of_nextEvent) hguard hinit hs
  obtain ⟨_, hkept, _⟩ := delivered_unless_lost hi
  exact ⟨s, hreach, hprop.1, hprop.2, hkept s hreach hprop.1 hprop.2⟩

/-- Standard output is full: nothing is written, and the exit status is 0. -/
theorem status_lies :
    ∃ s, (pipe_my_cat hi).Reachable s ∧ s.parent = .exited 0 ∧ s.child = .exited 1 ∧
      s.out = [] ∧ s.out ≠ hi.input := by
  have hrun : (System.replay (nextEvent hi) (init hi) (handOver ++ giveUp)).any (fun r =>
      r.1.parent == .exited 0 && r.1.child == .exited 1 && r.1.out == []) = true := by
    decide
  obtain ⟨⟨s, es⟩, hs, hprop⟩ := (Option.any_eq_true _ _).mp hrun
  simp only [Bool.and_eq_true, beq_iff_eq] at hprop
  have hreach : (pipe_my_cat hi).Reachable s :=
    (System.Run.of_replay (fun _ _ _ _ => step_of_nextEvent) hs).reachable (.init rfl)
  have hout : s.out = [] := hprop.2
  have hne : s.out ≠ hi.input := by
    rw [hout]
    decide
  exact ⟨s, hreach, hprop.1.1, hprop.1.2, hout, hne⟩

end PipeMyCat
