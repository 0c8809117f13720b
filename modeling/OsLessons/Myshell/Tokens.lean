import OsLessons.Lib.CString
import OsLessons.Myshell.Pipeline

/-! # myshell: splitting the line

  `trim`, `split_segments` and `parse_argv`, which overwrite the line they read:
  the segments and words they return are pointers into it. `parse_line` is what
  `main` does with a line before it runs the pipeline.

  Allocations succeed. The loops take a bound on their length.
-/

namespace Myshell

open CString

/-! ### Characters -/

def DQUOTE : UInt8 := 0x22
def SQUOTE : UInt8 := 0x27
def PIPE : UInt8 := 0x7c

/-- `in_s` and `in_d`: inside single and double quotes. -/
structure Quotes where
  in_s : Bool
  in_d : Bool
  deriving DecidableEq

/-- Outside of all quotes. -/
def Quotes.out : Quotes := ⟨false, false⟩

/-- `!in_s && !in_d` -/
def Quotes.isOut (q : Quotes) : Bool := !q.in_s && !q.in_d

/-- `c` opens or closes quotes; `none` if it is an ordinary character there. -/
def Quotes.toggle (q : Quotes) (c : UInt8) : Option Quotes :=
  if !q.in_s && c == DQUOTE then some { q with in_d := !q.in_d }
  else if !q.in_d && c == SQUOTE then some { q with in_s := !q.in_s }
  else none

theorem Quotes.isOut_iff {q : Quotes} : q.isOut = true ↔ q = .out := by
  obtain ⟨in_s, in_d⟩ := q
  cases in_s <;> cases in_d <;> decide

theorem ne_of_isspace {c : UInt8} (h : isspace c) : c ≠ DQUOTE ∧ c ≠ SQUOTE ∧ c ≠ PIPE := by
  refine ⟨?_, ?_, ?_⟩
  all_goals
    rintro rfl
    exact absurd h (by decide)

/-- Whitespace is an ordinary character outside of quotes. -/
theorem toggle_blank {c : UInt8} (h : isspace c) : Quotes.out.toggle c = none := by
  obtain ⟨hd, hq, -⟩ := ne_of_isspace h
  simp [Quotes.toggle, Quotes.out, hd, hq]

/-! ### Arrays of pointers -/

/-- A growing array: the pointers in it and the elements that are allocated.
    `stores` is a ghost that lists, for every store, its index and the number of
    elements allocated then. -/
structure PtrArray where
  ptrs : List ℕ
  cap : ℕ
  stores : List (ℕ × ℕ)
  deriving DecidableEq

/-- `malloc(8 * sizeof(*arr))` -/
def PtrArray.alloc : PtrArray := ⟨[], 8, []⟩

/-- `if (n == cap) { cap *= 2; … } arr[n++] = p` -/
def PtrArray.push (arr : PtrArray) (p : ℕ) : PtrArray :=
  let cap := if arr.ptrs.length = arr.cap then arr.cap * 2 else arr.cap
  ⟨arr.ptrs ++ [p], cap, arr.stores ++ [(arr.ptrs.length, cap)]⟩

/-- `argv[argc] = NULL`. The array is taken to be large enough; where it is full
    the store goes behind it, see `parse_argv_stores`. -/
def PtrArray.terminate (arr : PtrArray) : PtrArray :=
  { arr with stores := arr.stores ++ [(arr.ptrs.length, arr.cap)] }

@[simp] theorem PtrArray.push_ptrs (arr : PtrArray) (p : ℕ) :
    (arr.push p).ptrs = arr.ptrs ++ [p] := rfl

@[simp] theorem PtrArray.terminate_ptrs (arr : PtrArray) : arr.terminate.ptrs = arr.ptrs := rfl

/-! ### `trim` -/

/-- `while (e > s && isspace(*e)) *e-- = '\0'` -/
def trim_end (s : ℕ) : ℕ → Mem → Mem
  | 0, m => m
  | e + 1, m => if e + 1 > s ∧ isspace (m (e + 1)) then trim_end s e (m.set (e + 1) 0) else m

/-- The pointer that is returned, and the memory. -/
def trim (fuel : ℕ) (m : Mem) (s : ℕ) : Option (ℕ × Mem) := do
  let s ← skip_spaces fuel m s
  if m s = 0 then
    return (s, m)
  let len ← strlen fuel m s
  return (s, trim_end s (s + len - 1) m)

/-! ### `split_segments` -/

/-- The `for` loop over one segment: where it stops. -/
def scan_segment (delim : UInt8) : ℕ → Mem → Quotes → ℕ → Option ℕ
  | 0, _, _, _ => none
  | fuel + 1, m, q, p =>
      if m p = 0 then some p
      else
        match q.toggle (m p) with
        | some q => scan_segment delim fuel m q (p + 1)
        | none =>
            if q.isOut && m p == delim then some p else scan_segment delim fuel m q (p + 1)

/-- The loop over the segments, at `p`. -/
def split_segments_from (delim : UInt8) : ℕ → Mem → ℕ → PtrArray → Option (PtrArray × Mem)
  | 0, _, _, _ => none
  | fuel + 1, m, p, arr => do
      let seg_start := p
      let p ← scan_segment delim (fuel + 1) m .out p
      let (p, m) := if m p = delim then (p + 1, m.set p 0) else (p, m)
      let (clean, m) ← trim (fuel + 1) m seg_start
      let arr := if m clean ≠ 0 then arr.push clean else arr
      if m p = 0 then return (arr, m)
      split_segments_from delim fuel m p arr

def split_segments (fuel : ℕ) (m : Mem) (line : ℕ) (delim : UInt8) : Option (PtrArray × Mem) :=
  split_segments_from delim fuel m line .alloc

/-! ### `parse_argv` -/

/-- The inner loop: reads at `p` and writes at `w`. It returns both, and the
    memory. -/
def copy_word : ℕ → Mem → Quotes → ℕ → ℕ → Option (ℕ × ℕ × Mem)
  | 0, _, _, _, _ => none
  | fuel + 1, m, q, p, w =>
      if m p = 0 then some (p, w, m)
      else
        match q.toggle (m p) with
        | some q => copy_word fuel m q (p + 1) w
        | none =>
            if q.isOut && isspace (m p) then some (p + 1, w, m)
            else copy_word fuel (m.set w (m p)) q (p + 1) (w + 1)

/-- The loop over the words, at `p`. -/
def parse_argv_from : ℕ → Mem → ℕ → PtrArray → Option (PtrArray × Mem)
  | 0, _, _, _ => none
  | fuel + 1, m, p, argv => do
      if m p = 0 then return (argv.terminate, m)
      let p ← skip_spaces (fuel + 1) m p
      if m p = 0 then return (argv.terminate, m)
      let start := p
      let (p, w, m) ← copy_word (fuel + 1) m .out p p
      parse_argv_from fuel (m.set w 0) p (argv.push start)

def parse_argv (fuel : ℕ) (m : Mem) (segment : ℕ) : Option (PtrArray × Mem) :=
  parse_argv_from fuel m segment .alloc

/-! ### `main` -/

/-- `argvs[i] = parse_argv(segments[i])` for all segments. -/
def parse_segments (fuel : ℕ) : Mem → List ℕ → Option (List PtrArray × Mem)
  | m, [] => some ([], m)
  | m, segment :: segments => do
      let (argv, m) ← parse_argv fuel m segment
      let (argvs, m) ← parse_segments fuel m segments
      return (argv :: argvs, m)

/-- From the line to the argument vectors: `trim`, `split_segments` and
    `parse_argv`. An empty line has none. -/
def parse_line (fuel : ℕ) (m : Mem) (line : ℕ) : Option (List PtrArray × Mem) := do
  let (ln, m) ← trim fuel m line
  if m ln = 0 then
    return ([], m)
  let (segments, m) ← split_segments fuel m ln PIPE
  parse_segments fuel m segments.ptrs

end Myshell
