import OsLessons.Lib.Streams

/-! # The counter

  `count_fd` of `lesson4_counter.c` reads a descriptor to its end and counts
  bytes, words and lines. `in_word` lives through all chunks, so what it counts
  does not depend on how the stream was cut (`count_fd_stream`).
-/

namespace Counter

open Reads Runs

/-! ### The code -/

def BUF_SIZE : ℕ := 8192

/-- `unsigned long long` counters -/
structure Counts where
  bytes : UInt64
  words : UInt64
  lines : UInt64
  deriving DecidableEq

/-- `isspace` in the locale `C` -/
def isspace (ch : UInt8) : Bool := ch = 0x20 || (0x09 ≤ ch && ch ≤ 0x0d)

/-- The counters and `in_word`. -/
structure State where
  c : Counts
  in_word : Bool

/-- The body of the loop over the bytes of a chunk. -/
def count_byte (st : State) (ch : UInt8) : State :=
  let c := if ch = 0x0a then { st.c with lines := st.c.lines + 1 } else st.c
  if isspace ch then { c, in_word := false }
  else if st.in_word then { c, in_word := true }
  else { c := { c with words := c.words + 1 }, in_word := true }

/-- The body of the loop over the chunks. -/
def count_chunk (st : State) (buf : Bytes) : State :=
  buf.foldl count_byte { st with c := { st.c with bytes := st.c.bytes + buf.length.toUInt64 } }

/-- The loop over the chunks; `none` for `exit(1)` after a failed `read`. -/
def count_chunks : Fd BUF_SIZE → State → Option Counts
  | [], st => some st.c
  | .got chunk :: rest, st => count_chunks rest (count_chunk st chunk.bytes)
  | .error :: _, _ => none

def count_fd (fd : Fd BUF_SIZE) (c : Counts) : Option Counts :=
  count_chunks fd { c, in_word := false }

/-! ### What is counted -/

/-- A byte of a word -/
def inside (ch : UInt8) : Bool := !isspace ch

/-- The counters after `seen` has been read: `b` bytes have been counted, and
    the words and lines of `seen`. -/
structure Counted (c : Counts) (b : ℕ) (seen : Bytes) (st : State) : Prop where
  bytes : st.c.bytes = c.bytes + b.toUInt64
  words : st.c.words = c.words + (runCount inside seen).toUInt64
  lines : st.c.lines = c.lines + (seen.count 0x0a).toUInt64
  in_word : st.in_word = atEnd inside seen

variable {c : Counts} {b : ℕ} {seen : Bytes} {st : State}

theorem Counted.start (c : Counts) : Counted c 0 [] { c, in_word := false } := by
  constructor <;> simp

theorem count_byte_bytes (st : State) (ch : UInt8) : (count_byte st ch).c.bytes = st.c.bytes := by
  unfold count_byte
  split_ifs <;> rfl

theorem count_byte_lines (st : State) (ch : UInt8) :
    (count_byte st ch).c.lines = st.c.lines + if ch = 0x0a then 1 else 0 := by
  unfold count_byte
  split_ifs <;> simp

theorem count_byte_words (st : State) (ch : UInt8) :
    (count_byte st ch).c.words =
      st.c.words + if inside ch = true ∧ st.in_word = false then 1 else 0 := by
  unfold count_byte inside
  split_ifs <;> simp_all

theorem count_byte_in_word (st : State) (ch : UInt8) :
    (count_byte st ch).in_word = inside ch := by
  unfold count_byte inside
  split_ifs <;> simp_all

/-- A byte that begins a run is a word more. -/
theorem Counted.byte (h : Counted c b seen st) (ch : UInt8) :
    Counted c b (seen ++ [ch]) (count_byte st ch) where
  bytes := (count_byte_bytes st ch).trans h.bytes
  words := by
    rw [count_byte_words, h.words, h.in_word, runCount_snoc, UInt64.add_assoc]
    split_ifs <;> simp
  lines := by
    rw [count_byte_lines, h.lines, List.count_append, List.count_singleton, UInt64.add_assoc]
    split_ifs <;> simp_all
  in_word := by rw [count_byte_in_word, atEnd_snoc]

theorem Counted.loop (h : Counted c b seen st) (buf : Bytes) :
    Counted c b (seen ++ buf) (buf.foldl count_byte st) := by
  induction buf generalizing seen st with
  | nil => simpa using h
  | cons ch buf ih => simpa using ih (h.byte ch)

theorem Counted.chunk (h : Counted c b seen st) (buf : Bytes) :
    Counted c (b + buf.length) (seen ++ buf) (count_chunk st buf) := by
  have hbytes : st.c.bytes + buf.length.toUInt64 = c.bytes + (b + buf.length).toUInt64 := by
    rw [h.bytes, UInt64.add_assoc]
    simp
  have hstart : Counted c (b + buf.length) seen
      { st with c := { st.c with bytes := st.c.bytes + buf.length.toUInt64 } } :=
    ⟨hbytes, h.words, h.lines, h.in_word⟩
  exact hstart.loop buf

theorem Counted.chunks (h : Counted c b seen st) (chunks : List (Chunk BUF_SIZE)) :
    ∃ st', count_chunks (Fd.ofChunks chunks) st = some st'.c ∧
      Counted c (b + (stream chunks).length) (seen ++ stream chunks) st' := by
  induction chunks generalizing b seen st with
  | nil => exact ⟨st, rfl, by simpa using h⟩
  | cons chunk chunks ih =>
    obtain ⟨st', hst, hcounted⟩ := ih (h.chunk chunk.bytes)
    refine ⟨st', hst, ?_⟩
    simpa [Nat.add_assoc] using hcounted

/-- Counters that go up by `n` modulo 2^64 -/
theorem toNat_add_toUInt64 (x : UInt64) (n : ℕ) :
    (x + n.toUInt64).toNat = (x.toNat + n) % 2 ^ 64 := by
  simp [UInt64.toNat_add]

/-- **Chunking does not matter**: however `read` cuts the stream, `count_fd`
    adds its length, its newlines and its maximal runs of other bytes than
    white space, modulo 2^64. -/
theorem count_fd_stream (chunks : List (Chunk BUF_SIZE)) (c : Counts) :
    ∃ c', count_fd (Fd.ofChunks chunks) c = some c' ∧
      c'.bytes.toNat = (c.bytes.toNat + (stream chunks).length) % 2 ^ 64 ∧
      c'.lines.toNat = (c.lines.toNat + (stream chunks).count 0x0a) % 2 ^ 64 ∧
      c'.words.toNat = (c.words.toNat + runCount (fun ch => !isspace ch) (stream chunks)) % 2 ^ 64 := by
  obtain ⟨st, hst, hcounted⟩ := (Counted.start c).chunks chunks
  rw [List.nil_append, Nat.zero_add] at hcounted
  refine ⟨st.c, hst, ?_, ?_, ?_⟩
  · rw [hcounted.bytes, toNat_add_toUInt64]
  · rw [hcounted.lines, toNat_add_toUInt64]
  · rw [hcounted.words, toNat_add_toUInt64]
    rfl

end Counter
