import OsLessons.Lib.Streams

/-! # my_cat

  `lesson3_my_cat.c`: `copy_fd` reads a descriptor chunk by chunk and writes
  each chunk with one `write`. A `write` that takes fewer bytes than it is
  given counts as a failure. `write_all` of lesson 4 goes on with the rest
  instead.

  The answers of `write` are given for every call and every number of bytes.
-/

namespace MyCat

open Reads

def BUF_SIZE : ℕ := 65536

/-- How standard output answers: what call number `k` takes of `n` bytes, or
    `none` if it fails. -/
structure Stdout where
  write : ℕ → ℕ → Option ℕ
  le : ∀ {k n m}, write k n = some m → m ≤ n

/-- What is on standard output, and how many calls of `write` there have been. -/
structure World where
  out : Bytes
  writes : ℕ

/-- The return value, what is left on the descriptor, and the output. -/
def copy_fd (o : Stdout) : Fd BUF_SIZE → World → ℕ × Fd BUF_SIZE × World
  | [], w => (0, [], w)
  | .error :: fd, w => (1, fd, w)
  | .got buf :: fd, w =>
      match o.write w.writes buf.bytes.length with
      | none => (1, fd, { w with writes := w.writes + 1 })
      | some n =>
          let w' := { out := w.out ++ buf.bytes.take n, writes := w.writes + 1 }
          if n ≠ buf.bytes.length then (1, fd, w') else copy_fd o fd w'

/-- `argv[i]`: `-`, or a file with what `open` gives. -/
inductive Operand where
  | stdin
  | file (opened : Option (Fd BUF_SIZE))

/-- The loop over the operands. -/
def copy_operands (o : Stdout) : List Operand → Fd BUF_SIZE → ℕ → World → ℕ × World
  | [], _, status, w => (status, w)
  | .stdin :: args, stdin, status, w =>
      let r := copy_fd o stdin w
      copy_operands o args r.2.1 (status ||| r.1) r.2.2
  | .file none :: args, stdin, _, w => copy_operands o args stdin 1 w
  | .file (some fd) :: args, stdin, status, w =>
      let r := copy_fd o fd w
      copy_operands o args stdin (status ||| r.1) r.2.2

/-- The return value and what has been written. -/
def main (o : Stdout) (args : List Operand) (stdin : Fd BUF_SIZE) : ℕ × Bytes :=
  if args = [] then
    let r := copy_fd o stdin ⟨[], 0⟩
    (r.1, r.2.2.out)
  else
    let r := copy_operands o args stdin 0 ⟨[], 0⟩
    (r.1, r.2.out)

/-! ### Readable operands -/

/-- An operand that can be read, and how its bytes are cut. -/
inductive Source where
  | stdin
  | file (chunks : List (Chunk BUF_SIZE))

def Source.operand : Source → Operand
  | .stdin => .stdin
  | .file chunks => .file (some (Fd.ofChunks chunks))

/-- The chunks of the operands. Standard input is empty once it has been read. -/
def inputOf : List Source → List (Chunk BUF_SIZE) → List (Chunk BUF_SIZE)
  | [], _ => []
  | .stdin :: srcs, stdin => stdin ++ inputOf srcs []
  | .file chunks :: srcs, stdin => chunks ++ inputOf srcs stdin

/-- What the program is to copy. -/
def input (srcs : List Source) (stdin : List (Chunk BUF_SIZE)) : List (Chunk BUF_SIZE) :=
  if srcs = [] then stdin else inputOf srcs stdin

/-- No `write` fails, and each takes something. -/
def Accepting (o : Stdout) : Prop := ∀ k n, 0 < n → ∃ m, o.write k n = some m ∧ 0 < m

/-- From call `k` on every chunk is taken whole. -/
def Whole (o : Stdout) (k : ℕ) (cs : List (Chunk BUF_SIZE)) : Prop :=
  ∀ i c, cs[i]? = some c → o.write (k + i) c.bytes.length = some c.bytes.length

variable {o : Stdout} {k status : ℕ} {c : Chunk BUF_SIZE} {cs cs' : List (Chunk BUF_SIZE)}
  {w : World}

theorem whole_nil : Whole o k [] := by
  intro i c hc
  simp at hc

theorem whole_cons :
    Whole o k (c :: cs) ↔
      o.write k c.bytes.length = some c.bytes.length ∧ Whole o (k + 1) cs := by
  constructor
  · intro h
    refine ⟨h 0 c rfl, fun i c' hc => ?_⟩
    rw [Nat.add_assoc, Nat.add_comm 1 i]
    exact h (i + 1) c' hc
  · rintro ⟨hc, hcs⟩ i c' hc'
    cases i with
    | zero =>
      cases hc'
      exact hc
    | succ i =>
      have := hcs i c' hc'
      rwa [Nat.add_assoc, Nat.add_comm 1 i] at this

theorem whole_append :
    Whole o k (cs ++ cs') ↔ Whole o k cs ∧ Whole o (k + cs.length) cs' := by
  induction cs generalizing k with
  | nil => simp [whole_nil]
  | cons c cs ih =>
    rw [List.cons_append, whole_cons, whole_cons, ih, and_assoc, List.length_cons, Nat.add_assoc,
      Nat.add_comm 1]

/-! ### One descriptor -/

/-- `copy_fd` copies everything and returns 0, or meets a short `write` and returns 1. -/
theorem copy_fd_chunks (haccept : Accepting o) (cs : List (Chunk BUF_SIZE)) (w : World) :
    (Whole o w.writes cs ∧ copy_fd o (Fd.ofChunks cs) w =
      (0, [], ⟨w.out ++ stream cs, w.writes + cs.length⟩)) ∨
    (¬ Whole o w.writes cs ∧ (copy_fd o (Fd.ofChunks cs) w).1 = 1) := by
  induction cs generalizing w with
  | nil => exact .inl ⟨whole_nil, by simp [Fd.ofChunks, copy_fd]⟩
  | cons c cs ih =>
    obtain ⟨m, hm, _⟩ := haccept w.writes _ c.length_pos
    have hstep : copy_fd o (Fd.ofChunks (c :: cs)) w =
        if m ≠ c.bytes.length then
          (1, Fd.ofChunks cs, ⟨w.out ++ c.bytes.take m, w.writes + 1⟩)
        else copy_fd o (Fd.ofChunks cs) ⟨w.out ++ c.bytes.take m, w.writes + 1⟩ := by
      rw [Fd.ofChunks, List.map_cons, copy_fd, hm]
      rfl
    rw [whole_cons, hm, hstep]
    by_cases hshort : m = c.bytes.length
    · subst hshort
      rw [if_neg (not_not_intro rfl), List.take_length]
      rcases ih ⟨w.out ++ c.bytes, w.writes + 1⟩ with ⟨hwhole, heq⟩ | ⟨hnot, heq⟩
      · refine .inl ⟨⟨rfl, hwhole⟩, ?_⟩
        rw [heq, stream_cons, List.append_assoc, List.length_cons, Nat.add_assoc,
          Nat.add_comm 1]
      · exact .inr ⟨fun h => hnot h.2, heq⟩
    · rw [if_pos hshort]
      exact .inr ⟨fun h => hshort (Option.some.inj h.1), rfl⟩

/-! ### All operands -/

/-- A status other than 0 stays. -/
theorem copy_operands_status (args : List Operand) (stdin : Fd BUF_SIZE) (w : World)
    (hstatus : status ≠ 0) : (copy_operands o args stdin status w).1 ≠ 0 := by
  induction args generalizing stdin status w with
  | nil => exact hstatus
  | cons arg args ih =>
    have hor : ∀ r, status ||| r ≠ 0 := fun r h => hstatus (Nat.or_eq_zero_iff.mp h).1
    cases arg with
    | stdin => exact ih _ _ (hor _)
    | file opened =>
      cases opened with
      | none => exact ih _ _ one_ne_zero
      | some fd => exact ih _ _ (hor _)

theorem copy_operands_sources (haccept : Accepting o) (srcs : List Source)
    (stdin : List (Chunk BUF_SIZE)) (w : World) :
    (Whole o w.writes (inputOf srcs stdin) ∧
      (copy_operands o (srcs.map Source.operand) (Fd.ofChunks stdin) 0 w).1 = 0 ∧
      (copy_operands o (srcs.map Source.operand) (Fd.ofChunks stdin) 0 w).2.out =
        w.out ++ stream (inputOf srcs stdin)) ∨
    (¬ Whole o w.writes (inputOf srcs stdin) ∧
      (copy_operands o (srcs.map Source.operand) (Fd.ofChunks stdin) 0 w).1 ≠ 0) := by
  induction srcs generalizing stdin w with
  | nil => exact .inl ⟨whole_nil, rfl, by simp [copy_operands, inputOf]⟩
  | cons src srcs ih =>
    -- the chunks of this operand, and what it leaves on standard input
    cases src with
    | stdin =>
      simp only [List.map_cons, Source.operand, copy_operands, inputOf]
      rcases copy_fd_chunks haccept stdin w with ⟨hwhole, heq⟩ | ⟨hnot, heq⟩
      · simp only [heq, whole_append, hwhole, true_and, stream_append, ← List.append_assoc]
        exact ih [] ⟨w.out ++ stream stdin, w.writes + stdin.length⟩
      · simp only [heq, whole_append, hnot, false_and, not_false_eq_true, true_and, false_or]
        exact copy_operands_status _ _ _ (by decide)
    | file chunks =>
      simp only [List.map_cons, Source.operand, copy_operands, inputOf]
      rcases copy_fd_chunks haccept chunks w with ⟨hwhole, heq⟩ | ⟨hnot, heq⟩
      · simp only [heq, whole_append, hwhole, true_and, stream_append, ← List.append_assoc]
        exact ih stdin ⟨w.out ++ stream chunks, w.writes + chunks.length⟩
      · simp only [heq, whole_append, hnot, false_and, not_false_eq_true, true_and, false_or]
        exact copy_operands_status _ _ _ (by decide)

/-- **Short writes**: as long as no `write` fails and each takes something,
    `my_cat` copies its operands and returns 0 if and only if every `write`
    takes its whole chunk. -/
theorem copies_all_iff (haccept : Accepting o) (srcs : List Source)
    (stdin : List (Chunk BUF_SIZE)) :
    main o (srcs.map Source.operand) (Fd.ofChunks stdin) = (0, stream (input srcs stdin)) ↔
      ∀ k c, (input srcs stdin)[k]? = some c →
        o.write k c.bytes.length = some c.bytes.length := by
  have hcalls : Whole o 0 (input srcs stdin) ↔ ∀ k c, (input srcs stdin)[k]? = some c →
      o.write k c.bytes.length = some c.bytes.length := by
    simp only [Whole, Nat.zero_add]
  rw [← hcalls, Prod.ext_iff]
  cases srcs with
  | nil =>
    rcases copy_fd_chunks haccept stdin ⟨[], 0⟩ with ⟨hwhole, heq⟩ | ⟨hnot, heq⟩
    · exact iff_of_true ⟨by simp [main, heq], by simp [main, heq, input]⟩ hwhole
    · refine iff_of_false (fun h => ?_) hnot
      simp [main, heq] at h
  | cons src srcs =>
    rcases copy_operands_sources haccept (src :: srcs) stdin ⟨[], 0⟩ with
      ⟨hwhole, hstatus, hout⟩ | ⟨hnot, hstatus⟩
    · exact iff_of_true ⟨hstatus, hout⟩ hwhole
    · exact iff_of_false (fun h => hstatus h.1) hnot

/-! ### A file with two bytes -/

/-- `ab`, read at once -/
def ab : Chunk BUF_SIZE := ⟨[0x61, 0x62], by decide, by decide⟩

def takesAll : Stdout := ⟨fun _ n => some n, fun h => by cases h; exact le_rfl⟩

def takesOne : Stdout := ⟨fun _ n => some (min n 1), fun h => by cases h; exact min_le_left _ _⟩

theorem copies_all_twice :
    main takesAll ([Source.file [ab], Source.stdin].map Source.operand) (Fd.ofChunks [ab]) =
      (0, [0x61, 0x62, 0x61, 0x62]) :=
  (copies_all_iff (fun _ n hn => ⟨n, rfl, hn⟩) [Source.file [ab], Source.stdin] [ab]).mpr
    fun _ _ _ => rfl

/-- The first byte is taken, and the second one is never written. -/
theorem short_write_fails :
    Accepting takesOne ∧
    main takesOne ([Source.file [ab]].map Source.operand) (Fd.ofChunks []) = (1, [0x61]) ∧
    main takesOne ([Source.file [ab]].map Source.operand) (Fd.ofChunks []) ≠
      (0, stream (input [Source.file [ab]] [])) := by
  refine ⟨fun _ n hn => ⟨min n 1, rfl, lt_min hn one_pos⟩, rfl, ?_⟩
  intro h
  exact absurd (congrArg Prod.fst h) (by decide)

end MyCat
