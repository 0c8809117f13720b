import OsLessons.Lib.ForkJoin

/-! # lesson2_parent and lesson2_sort_time

  Both fork a number of children, wait for them and print a last text. The
  parent of `lesson2_parent` prints a line before it forks and does not flush
  it; the children of `lesson2_sort_time` flush their number.

  A `sleep` takes any time. All texts fit into the buffer of standard output;
  a terminal gets it whenever a line ends.
-/

open Lts Processes

namespace Parent

/-! ### lesson2_parent -/

inductive Line where
  /-- `"Parent PID: %d\n"` -/
  | parent (pid : ℕ)
  /-- `"Child %d created with PID %d (parent %d)\n"` -/
  | child (i pid ppid : ℕ)
  /-- `"Parent %d: all children finished.\n"` -/
  | finished (pid : ℕ)
  deriving DecidableEq

/-- `main` with `N` children; process `p` has the id `pid p`, and a child whose
    parent is gone sees the id `init`. -/
def main (N : ℕ) (pid : ℕ → ℕ) (init : ℕ) : ForkJoin Line where
  n := N
  opening := [.parent (pid 0)]
  line i parent := .child i (pid (i + 1)) ((parent.map pid).getD init)
  flushes := false
  closing := .finished (pid 0)

/-- On a terminal every line is written when it is printed. -/
def stdout (tty : Bool) : Line → Bool := fun _ => tty

section
variable {N : ℕ} {pid : ℕ → ℕ} {init : ℕ} {tty : Bool}

theorem held_eq : (main N pid init).held (stdout tty) = if tty then [] else [.parent (pid 0)] := by
  cases tty <;> rfl

theorem written_eq :
    (main N pid init).written (stdout tty) = if tty then [.parent (pid 0)] else [] := by
  cases tty <;> rfl

/-- A child writes its copy of the first line, if there is one, and its own. -/
theorem chunk_child (i : ℕ) (parent : Option ℕ) :
    (main N pid init).chunk (stdout tty) (.child i parent) =
      (if tty then [] else [.parent (pid 0)]) ++ [(main N pid init).line i parent] := by
  rw [ForkJoin.chunk, held_eq]

/-- Every process that has inherited the first line writes it once more. -/
theorem count_chunk (e : ForkJoin.Event) :
    ((main N pid init).chunk (stdout tty) e).count (.parent (pid 0)) = if tty then 0 else 1 := by
  cases e with
  | child i parent =>
    rw [chunk_child]
    cases tty <;> simp [main]
  | parent closed =>
    cases closed
    · rw [ForkJoin.chunk, held_eq]
      cases tty <;> simp
    · rw [ForkJoin.chunk, held_eq]
      cases tty <;> simp [main]

theorem count_flatMap (es : List ForkJoin.Event) :
    (es.flatMap ((main N pid init).chunk (stdout tty))).count (.parent (pid 0)) =
      if tty then 0 else es.length := by
  rw [List.count_flatMap]
  have hconst : List.count (Line.parent (pid 0)) ∘ (main N pid init).chunk (stdout tty) =
      fun _ => if tty then 0 else 1 := funext count_chunk
  rw [hconst]
  cases tty <;> simp

/-- Without its closing text the parent prints no last line. -/
theorem finished_not_mem {es : List ForkJoin.Event} (h : .parent true ∉ es) :
    Line.finished (pid 0) ∉ es.flatMap ((main N pid init).chunk (stdout tty)) := by
  intro hmem
  obtain ⟨e, he, hline⟩ := List.mem_flatMap.mp hmem
  cases e with
  | child i parent =>
    rw [chunk_child] at hline
    cases tty <;> simp [main] at hline
  | parent closed =>
    cases closed with
    | true => exact h he
    | false =>
      rw [ForkJoin.chunk, held_eq] at hline
      cases tty <;> simp at hline

/-- Every run ends. The children's lines come in any order and the last line
    comes last; on a terminal the first line is there once, and otherwise once
    for every process that was ever forked. If a `fork` fails, there is no last
    line. -/
theorem children_first {ls : List Label} {c : Config (ForkJoin.Pc Line) Line}
    (hrun : (system (main N pid init).program (stdout tty)).Run
      (initial (main N pid init).program) ls c) :
    ls.length ≤ 5 * N + 3 ∧
    ((∀ l c', ¬ (system (main N pid init).program (stdout tty)).step c l c') →
      c.out.count (.parent (pid 0)) = (if tty then 1 else c.procs.length) ∧
      (ForkJoin.Finished c N ∧ (∃ order : List ℕ, order.Perm (List.range N) ∧
          c.out = (if tty then [Line.parent (pid 0)] else []) ++
            (order.flatMap fun i => (if tty then [] else [Line.parent (pid 0)]) ++
              [Line.child i (pid (i + 1)) (pid 0)]) ++
            (if tty then [] else [Line.parent (pid 0)]) ++ [Line.finished (pid 0)]) ∨
        c.procs.length ≤ N ∧ Line.finished (pid 0) ∉ c.out)) := by
  refine ⟨(main N pid init).length_le hrun, fun hquiet => ?_⟩
  have hreach : (system (main N pid init).program (stdout tty)).Reachable c :=
    hrun.reachable (.init rfl)
  rcases ForkJoin.out_of_quiet hreach hquiet with
    ⟨hfin, order, hperm, hout⟩ | ⟨k, hk, hlen, es, hperm, hfalse, htrue, hout⟩
  · rw [written_eq, held_eq] at hout
    refine ⟨?_, .inl ⟨hfin, order, hperm, hout⟩⟩
    have hlen : order.length = N := by
      rw [hperm.length_eq, List.length_range]
      rfl
    rw [hout, hfin.length]
    cases tty
    · simp [main, List.count_flatMap, Function.comp_def, hlen]
    · simp [main, List.count_flatMap, Function.comp_def]
  · have hes : es.length = c.procs.length := by
      have hids : (ForkJoin.ids es).length = k := by simpa using hperm.length_eq
      have hzero : es.count (.parent true) = 0 := List.count_eq_zero.mpr htrue
      rw [ForkJoin.length_events, hids, hfalse, hzero, hlen]
    refine ⟨?_, .inr ⟨by rw [hlen]; exact hk, ?_⟩⟩
    · rw [hout, List.count_append, count_flatMap, written_eq, hes]
      cases tty <;> simp
    · rw [hout, written_eq]
      intro hmem
      rcases List.mem_append.mp hmem with hmem | hmem
      · cases tty <;> simp at hmem
      · exact finished_not_mem htrue hmem

end

/-- One child, into a file: the first line is there twice. -/
def oneChild : Config (ForkJoin.Pc Line) Line where
  procs := [⟨none, [], .exited 0⟩, ⟨none, [], .reaped 0⟩]
  out := [.parent 7, .child 0 8 7, .parent 7, .finished 7]

theorem run_oneChild :
    (system (main 1 (· + 7) 1).program (stdout false)).Run (initial (main 1 (· + 7) 1).program)
      [.act 0, .act 0, .act 1, .act 1, .reap 0 1, .act 0, .act 0] oneChild :=
  .cons rfl (.cons rfl (.cons rfl (.cons rfl (.cons rfl (.cons rfl (.cons rfl (.nil _)))))))

theorem children_first_one :
    (∀ l c', ¬ (system (main 1 (· + 7) 1).program (stdout false)).step oneChild l c') ∧
      oneChild.out.count (.parent 7) = 2 := by
  have hquiet : ∀ l c', ¬ (system (main 1 (· + 7) 1).program (stdout false)).step oneChild l c' :=
    quiet_of_exited (by simp [oneChild])
  exact ⟨hquiet, ((children_first run_oneChild).2 hquiet).1⟩

end Parent

namespace SortTime

/-! ### lesson2_sort_time -/

inductive Text where
  /-- `"%d "` -/
  | number (n : ℤ)
  | newline
  deriving DecidableEq

/-- `main` with the numbers of its arguments. -/
def main (numbers : List ℤ) : ForkJoin Text where
  n := numbers.length
  opening := []
  line i _ := .number (numbers.getD i 0)
  flushes := true
  closing := .newline

/-- A terminal gets the numbers when they are flushed. -/
def stdout (tty : Bool) (t : Text) : Bool := tty && t = .newline

section
variable {numbers : List ℤ} {tty : Bool}

/-- Reading the numbers in some order of their places permutes them. -/
theorem perm_getD {order : List ℕ} {k : ℕ} (hperm : order.Perm (List.range k))
    (hk : k ≤ numbers.length) :
    (order.map fun i => numbers.getD i 0).Perm (numbers.take k) := by
  have htake : (List.range k).map (fun i => numbers.getD i 0) = numbers.take k := by
    apply List.ext_getElem
    · simpa using hk
    · intro i h₁ h₂
      have hi : i < numbers.length := by simp at h₂; omega
      simp only [List.getElem_map, List.getElem_range, List.getElem_take]
      exact List.getD_eq_getElem _ _ hi
  rw [← htake]
  exact hperm.map _

/-- A child writes its number, and the parent nothing but a newline. -/
theorem flatMap_chunk {es : List ForkJoin.Event} (h : .parent true ∉ es) :
    es.flatMap ((main numbers).chunk (stdout tty)) =
      ((ForkJoin.ids es).map fun i => numbers.getD i 0).map .number := by
  induction es with
  | nil => rfl
  | cons e es ih =>
    simp only [List.mem_cons, not_or] at h
    have hrest := ih h.2
    rw [List.flatMap_cons, hrest]
    cases e with
    | child i parent => rfl
    | parent closed =>
      cases closed with
      | true => exact absurd rfl h.1
      | false => rfl

/-- Every run ends. What is printed are the numbers, each once, in the order in
    which the children come, and then a newline; if a `fork` fails, the numbers
    before it, and no newline. -/
theorem numbers_printed {ls : List Label} {c : Config (ForkJoin.Pc Text) Text}
    (hrun : (system (main numbers).program (stdout tty)).Run (initial (main numbers).program) ls c) :
    ls.length ≤ 5 * numbers.length + 2 ∧
    ((∀ l c', ¬ (system (main numbers).program (stdout tty)).step c l c') →
      (ForkJoin.Finished c numbers.length ∧ ∃ printed : List ℤ, printed.Perm numbers ∧
          c.out = printed.map .number ++ [.newline]) ∨
        ∃ k < numbers.length, ∃ printed : List ℤ, printed.Perm (numbers.take k) ∧
          c.out = printed.map .number) := by
  refine ⟨(main numbers).length_le hrun, fun hquiet => ?_⟩
  have hreach : (system (main numbers).program (stdout tty)).Reachable c :=
    hrun.reachable (.init rfl)
  rcases ForkJoin.out_of_quiet hreach hquiet with
    ⟨hfin, order, hperm, hout⟩ | ⟨k, hk, hlen, es, hperm, hfalse, htrue, hout⟩
  · have hsorted : (order.map fun i => numbers.getD i 0).Perm (numbers.take numbers.length) :=
      perm_getD hperm le_rfl
    rw [List.take_length] at hsorted
    refine .inl ⟨hfin, _, hsorted, ?_⟩
    have hmap : (order.flatMap fun i => [Text.number (numbers.getD i 0)]) =
        (order.map fun i => numbers.getD i 0).map .number := by
      rw [List.map_map, List.map_eq_flatMap]
      rfl
    have hwritten : (main numbers).written (stdout tty) = [] := rfl
    have hheld : (main numbers).held (stdout tty) = [] := rfl
    rw [hout, ← hmap, hwritten, hheld, List.append_nil]
    rfl
  · refine .inr ⟨k, hk, _, perm_getD hperm hk.le, ?_⟩
    rw [hout, flatMap_chunk htrue]
    rfl

end

/-- Two numbers, the second child first. -/
def twoNumbers : Config (ForkJoin.Pc Text) Text where
  procs := [⟨none, [], .exited 0⟩, ⟨none, [], .reaped 0⟩, ⟨none, [], .reaped 0⟩]
  out := [.number 1, .number 3, .newline]

theorem run_twoNumbers :
    (system (main [3, 1]).program (stdout true)).Run (initial (main [3, 1]).program)
      [.act 0, .act 0, .act 2, .act 2, .act 1, .act 1, .act 1, .act 2, .reap 0 2, .reap 0 1,
        .act 0, .act 0] twoNumbers :=
  .cons rfl (.cons rfl (.cons rfl (.cons rfl (.cons rfl (.cons rfl (.cons rfl (.cons rfl
    (.cons rfl (.cons rfl (.cons rfl (.cons rfl (.nil _))))))))))))

theorem numbers_printed_two :
    (∀ l c', ¬ (system (main [3, 1]).program (stdout true)).step twoNumbers l c') ∧
      ∃ printed : List ℤ, twoNumbers.out = printed.map .number ++ [.newline] := by
  have hquiet : ∀ l c', ¬ (system (main [3, 1]).program (stdout true)).step twoNumbers l c' :=
    quiet_of_exited (by simp [twoNumbers])
  refine ⟨hquiet, ?_⟩
  rcases (numbers_printed run_twoNumbers).2 hquiet with ⟨-, printed, -, hout⟩ | ⟨k, -, printed, -, hout⟩
  · exact ⟨printed, hout⟩
  · have hnewline : Text.newline ∈ printed.map Text.number := by
      rw [← hout]
      simp [twoNumbers]
    simp at hnewline

end SortTime
