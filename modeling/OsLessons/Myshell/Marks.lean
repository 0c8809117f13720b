import OsLessons.Myshell.Reference

/-! # myshell: the line with its quotes marked

  Another way to say what a line means, which tracks quotes only once: every
  character of the line is marked as ordinary, as inside quotes, or as a quote
  that opens or closes a quotation. Cutting and trimming the marked line needs
  no further state.

  - `markedSegments`, `markedWords`, `text`: the words of a line.
  - `split_and_parse`: what the in-place code returns.
-/

namespace Myshell

open CString

/-- What a character of the line is: outside of quotes, inside of quotes, or a
    quote that opens or closes a quotation. -/
inductive Mark where
  | plain | inner | quote
  deriving DecidableEq

structure Sym where
  char : UInt8
  mark : Mark
  deriving DecidableEq

/-- The characters of a line with their marks. -/
def marked : Quotes → List UInt8 → List Sym
  | _, [] => []
  | q, c :: s =>
      match q.toggle c with
      | some q => ⟨c, .quote⟩ :: marked q s
      | none => ⟨c, if q.isOut then .plain else .inner⟩ :: marked q s

/-- A `|` outside of quotes. -/
def Sym.isBar (c : Sym) : Bool := c.char == PIPE && c.mark == .plain

/-- Whitespace outside of quotes. -/
def Sym.isBlank (c : Sym) : Bool := isspace c.char && c.mark == .plain

/-- Whitespace. -/
def Sym.isSpace (c : Sym) : Bool := isspace c.char

def trimSyms (l : List Sym) : List Sym := (l.dropWhile Sym.isSpace).rdropWhile Sym.isSpace

/-- Cut a line at `|`, trim the pieces and drop the empty ones. -/
def markedSegments (s : List UInt8) : List (List Sym) :=
  (((marked .out s).splitOnP Sym.isBar).map trimSyms).filter (· ≠ [])

/-- Cut a segment at whitespace. -/
def markedWords (seg : List Sym) : List (List Sym) :=
  (seg.splitOnP Sym.isBlank).filter (· ≠ [])

/-- A word without the quotes around its quotations. -/
def text (w : List Sym) : Word := (w.filter (·.mark ≠ .quote)).map Sym.char

variable {q : Quotes} {s r : List UInt8} {c : UInt8}

/-! ### Marks -/

theorem marked_of_some {q' : Quotes} (h : q.toggle c = some q') :
    marked q (c :: s) = ⟨c, .quote⟩ :: marked q' s := by
  rw [marked, h]

theorem marked_of_none (h : q.toggle c = none) :
    marked q (c :: s) = ⟨c, if q.isOut then .plain else .inner⟩ :: marked q s := by
  rw [marked, h]

theorem marked_eq_nil : marked q s = [] ↔ s = [] := by
  cases s with
  | nil => exact ⟨fun _ => rfl, fun _ => rfl⟩
  | cons c s =>
    cases h : q.toggle c with
    | some q' => simp [marked_of_some h]
    | none => simp [marked_of_none h]

/-- Whether the last character is whitespace does not depend on the marks. -/
theorem marked_concat (q : Quotes) (s : List UInt8) (c : UInt8) :
    ∃ k, marked q (s ++ [c]) = marked q s ++ [⟨c, k⟩] := by
  induction s generalizing q with
  | nil =>
    cases h : q.toggle c with
    | some q' => exact ⟨.quote, marked_of_some h⟩
    | none => exact ⟨_, marked_of_none h⟩
  | cons d s ih =>
    cases h : q.toggle d with
    | some q' =>
      obtain ⟨k, hk⟩ := ih q'
      exact ⟨k, by rw [List.cons_append, marked_of_some h, marked_of_some h, hk, List.cons_append]⟩
    | none =>
      obtain ⟨k, hk⟩ := ih q
      exact ⟨k, by rw [List.cons_append, marked_of_none h, marked_of_none h, hk, List.cons_append]⟩

/-- Whitespace outside of quotes. -/
theorem marked_space (h : isspace c) : marked .out (c :: s) = ⟨c, .plain⟩ :: marked .out s :=
  marked_of_none (toggle_blank h)

/-! ### Segments -/

/-- Up to the first delimiter there is no bar, and the first delimiter is one. -/
theorem splitOnP_isBar (q : Quotes) (s : List UInt8) :
    (marked q s).splitOnP Sym.isBar = marked q (cutAt PIPE q s).1 ::
      ((cutAt PIPE q s).2.map fun r => (marked .out r).splitOnP Sym.isBar).getD [] := by
  induction s generalizing q with
  | nil => rfl
  | cons c s ih =>
    cases h : q.toggle c with
    | some q' =>
      have hbar : ¬ (Sym.mk c .quote).isBar := by simp [Sym.isBar]
      simp only [cutAt, h, marked_of_some h]
      rw [List.splitOnP_cons_eq_if_modifyHead, if_neg hbar, ih q']
      rfl
    | none =>
      by_cases hbar : (q.isOut && c == PIPE) = true
      · obtain ⟨hout, rfl⟩ : q.isOut = true ∧ c = PIPE := by simpa using hbar
        obtain rfl := Quotes.isOut_iff.mp hout
        rfl
      · have hbar' : ¬ (Sym.mk c (if q.isOut then .plain else .inner)).isBar := by
          cases hout : q.isOut <;> simp_all [Sym.isBar]
        simp only [cutAt, h, hbar, Bool.false_eq_true, ↓reduceIte, marked_of_none h]
        rw [List.splitOnP_cons_eq_if_modifyHead, if_neg hbar', ih q]
        rfl

theorem pieces_marked (s : List UInt8) :
    (marked .out s).splitOnP Sym.isBar = (pieces PIPE s).map (marked .out) := by
  induction hn : s.length using Nat.strong_induction_on generalizing s with
  | _ n ih =>
    rw [splitOnP_isBar]
    cases hcut : (cutAt PIPE .out s).2 with
    | none =>
      have heq := cutAt_eq PIPE .out s
      rw [hcut, Option.map_none, Option.getD_none, List.append_nil] at heq
      rw [pieces_of_none hcut, ← heq]
      rfl
    | some r =>
      have hlength := length_of_cutAt hcut
      rw [pieces_of_some hcut, Option.map_some, Option.getD_some, ih r.length (by omega) r rfl,
        List.map_cons]

theorem dropWhile_marked (s : List UInt8) :
    (marked .out s).dropWhile Sym.isSpace = marked .out (s.dropWhile isspace) := by
  induction s with
  | nil => rfl
  | cons c s ih =>
    by_cases h : isspace c
    · rw [marked_space h, List.dropWhile_cons_of_pos h, List.dropWhile_cons_of_pos, ih]
      exact h
    · rw [List.dropWhile_cons_of_neg h]
      cases htoggle : Quotes.out.toggle c with
      | some q' =>
        rw [marked_of_some htoggle, List.dropWhile_cons_of_neg]
        exact h
      | none =>
        rw [marked_of_none htoggle, List.dropWhile_cons_of_neg]
        exact h

theorem rdropWhile_marked (q : Quotes) (s : List UInt8) :
    (marked q s).rdropWhile Sym.isSpace = marked q (s.rdropWhile isspace) := by
  induction s using List.reverseRecOn with
  | nil => rfl
  | append_singleton s c ih =>
    obtain ⟨k, hk⟩ := marked_concat q s c
    by_cases h : isspace c
    · rw [hk, List.rdropWhile_concat_pos isspace _ _ h, List.rdropWhile_concat_pos, ih]
      exact h
    · rw [List.rdropWhile_concat_neg isspace _ _ h, hk, List.rdropWhile_concat_neg]
      exact h

theorem trimSyms_marked (s : List UInt8) : trimSyms (marked .out s) = marked .out (trimmed s) := by
  rw [trimSyms, dropWhile_marked, rdropWhile_marked, trimmed]

/-- The segments of the marked line are the segments of the line, with marks. -/
theorem markedSegments_eq (s : List UInt8) :
    markedSegments s = (segmentsOf PIPE s).map (marked .out) := by
  rw [markedSegments, pieces_marked, segmentsOf, List.map_map, List.filter_map]
  have htrim : (trimSyms ∘ marked .out) = marked .out ∘ trimmed := funext trimSyms_marked
  have hfilter : ((fun l => decide (l ≠ [])) ∘ trimSyms ∘ marked .out) =
      (fun t => decide (t ≠ [])) ∘ trimmed := by
    rw [htrim]
    funext t
    simp [marked_eq_nil]
  rw [hfilter, htrim, List.filter_map, List.map_map]

/-! ### Words -/

@[simp] theorem text_nil : text [] = [] := rfl

theorem text_cons {k : Mark} (h : k ≠ .quote) (c : UInt8) (l : List Sym) :
    text (⟨c, k⟩ :: l) = c :: text l := by
  simp [text, h]

/-- A word goes up to the first whitespace outside of quotes. -/
theorem marked_wordOf (q : Quotes) (s : List UInt8) :
    ∃ a, (∀ c ∈ a, Sym.isBlank c = false) ∧ text a = (wordOf q s).1 ∧
      (marked q s = a ∧ (wordOf q s).2 = [] ∨
        ∃ c, Sym.isBlank c ∧ marked q s = a ++ c :: marked .out (wordOf q s).2) := by
  induction s generalizing q with
  | nil => exact ⟨[], by simp, rfl, .inl ⟨rfl, rfl⟩⟩
  | cons c s ih =>
    cases h : q.toggle c with
    | some q' =>
      obtain ⟨a, hblank, htext, hrest⟩ := ih q'
      simp only [wordOf, h, marked_of_some h]
      refine ⟨⟨c, .quote⟩ :: a, ?_, htext, ?_⟩
      · intro d hd
        rcases List.mem_cons.mp hd with rfl | hd
        · simp [Sym.isBlank]
        · exact hblank d hd
      · rcases hrest with ⟨ha, hnil⟩ | ⟨d, hd, ha⟩
        · exact .inl ⟨by rw [ha], hnil⟩
        · exact .inr ⟨d, hd, by rw [ha, List.cons_append]⟩
    | none =>
      by_cases hspace : (q.isOut && isspace c) = true
      · obtain ⟨hout, hc⟩ : q.isOut = true ∧ isspace c = true := by simpa using hspace
        obtain rfl := Quotes.isOut_iff.mp hout
        simp only [wordOf, h, hspace, ↓reduceIte]
        refine ⟨[], by simp, rfl, .inr ⟨⟨c, .plain⟩, ?_, marked_space hc⟩⟩
        simp [Sym.isBlank, hc]
      · obtain ⟨a, hblank, htext, hrest⟩ := ih q
        simp only [wordOf, h, hspace, Bool.false_eq_true, ↓reduceIte, marked_of_none h]
        refine ⟨⟨c, if q.isOut then .plain else .inner⟩ :: a, ?_, ?_, ?_⟩
        · intro d hd
          rcases List.mem_cons.mp hd with rfl | hd
          · cases hout : q.isOut <;> simp_all [Sym.isBlank]
          · exact hblank d hd
        · rw [text_cons (by cases q.isOut <;> decide), htext]
        · rcases hrest with ⟨ha, hnil⟩ | ⟨d, hd, ha⟩
          · exact .inl ⟨by rw [ha], hnil⟩
          · exact .inr ⟨d, hd, by rw [ha, List.cons_append]⟩

@[simp] theorem markedWords_nil : markedWords [] = [] := rfl

theorem markedWords_blank {d : Sym} (h : d.isBlank) (l : List Sym) :
    markedWords (d :: l) = markedWords l := by
  rw [markedWords, List.splitOnP_cons_eq_if_modifyHead, if_pos h]
  rfl

/-- Leading whitespace belongs to no word. -/
theorem markedWords_dropWhile (s : List UInt8) :
    markedWords (marked .out s) = markedWords (marked .out (s.dropWhile isspace)) := by
  induction s with
  | nil => rfl
  | cons c s ih =>
    by_cases h : isspace c
    · rw [List.dropWhile_cons_of_pos h, marked_space h, markedWords_blank, ih]
      simp [Sym.isBlank, h]
    · rw [List.dropWhile_cons_of_neg h]

/-- The words of a marked segment, without their quotes, are the words of the segment. -/
theorem markedWords_eq (s : List UInt8) :
    (markedWords (marked .out s)).map text = wordsOf s := by
  induction hn : s.length using Nat.strong_induction_on generalizing s with
  | _ n ih =>
    rw [markedWords_dropWhile]
    have hle := (List.dropWhile_suffix (l := s) isspace).length_le
    cases hdrop : s.dropWhile isspace with
    | nil =>
      rw [wordsOf_of_nil hdrop]
      rfl
    | cons c t =>
      rw [hdrop, List.length_cons] at hle
      have hc : ¬ isspace c := by
        have hhead := List.head?_dropWhile_not isspace s
        rw [hdrop] at hhead
        simpa using hhead
      obtain ⟨a, hblank, htext, hrest⟩ := marked_wordOf .out (c :: t)
      have hlt := length_wordOf_lt .out c t
      rw [wordsOf_of_cons hdrop, ← htext]
      rcases hrest with ⟨ha, hnil⟩ | ⟨d, hd, ha⟩
      · have hne : a ≠ [] := fun h => by
          rw [h, marked_eq_nil] at ha
          cases ha
        rw [ha, hnil, markedWords, List.splitOnP_eq_singleton hblank, wordsOf_of_nil rfl]
        simp [hne]
      · have hne : a ≠ [] := by
          -- the segment does not start with whitespace
          rintro rfl
          have hhead : (marked .out (c :: t)).head? = some d := by rw [ha]; rfl
          have hchar : d.char = c := by
            cases htoggle : Quotes.out.toggle c with
            | some q' =>
              rw [marked_of_some htoggle, List.head?_cons, Option.some.injEq] at hhead
              rw [← hhead]
            | none =>
              rw [marked_of_none htoggle, List.head?_cons, Option.some.injEq] at hhead
              rw [← hhead]
          rw [Sym.isBlank, hchar, Bool.and_eq_true] at hd
          exact hc hd.1
        rw [← ih _ (by omega) (wordOf .out (c :: t)).2 rfl, ha, markedWords,
          List.splitOnP_append_cons_of_forall_mem hblank d hd, List.filter_cons]
        simp [hne, markedWords]

/-! ### The code -/

/-- The words of a line, without anything being overwritten. -/
def lineWords (s : List UInt8) : List (List Word) :=
  (markedSegments s).map fun seg => (markedWords seg).map text

theorem lineWords_eq (s : List UInt8) : lineWords s = (segmentsOf PIPE s).map wordsOf := by
  rw [lineWords, markedSegments_eq, List.map_map]
  exact List.map_congr_left fun seg _ => markedWords_eq seg

variable {m : Mem} {p fuel : ℕ}

/-- `split_segments` and then `parse_argv` on every segment end, and at the end
    the pointers show the words of the line; nothing else in the buffer has
    changed. The arrays of pointers are taken to be large enough: what the last
    store into a full one does is the subject of `parse_argv_stores`. -/
theorem split_and_parse (h : StrAt m p s) (hfuel : s.length < fuel) :
    ∃ segments m₁ argvs m', split_segments fuel m p PIPE = some (segments, m₁) ∧
      parse_segments fuel m₁ segments.ptrs = some (argvs, m') ∧
      Shows m' argvs (lineWords s) ∧ Keeps p (p + s.length) m m' := by
  obtain ⟨segments, m₁, ps, hsplit, hps, hlaid, hkeeps⟩ :=
    split_segments_from_spec (show PIPE ≠ 0 by decide) .alloc h hfuel
  obtain ⟨argvs, m', hparse, hshows, hkeeps'⟩ := parse_segments_spec hlaid
    (show p + s.length < p + fuel by omega)
  have hptrs : segments.ptrs = ps := hps
  rw [lineWords_eq]
  exact ⟨segments, m₁, argvs, m', hsplit, by rw [hptrs, hparse], hshows, hkeeps.trans hkeeps'⟩

/-- Adjacent quotations, two bars in a row, an empty word, and quotes that are
    never closed. -/
def mixedLine : List UInt8 :=
  [97, 34, 98, 32, 99, 34, 39, 100, 34, 39, 124, 124, 39, 39, 32, 120, 124, 32, 34, 121, 32]

theorem split_and_parse_mixed :
    ∃ segments m₁ argvs m', split_segments 30 (.holding mixedLine) 0 PIPE = some (segments, m₁) ∧
      parse_segments 30 m₁ segments.ptrs = some (argvs, m') ∧
      Shows m' argvs
        [[[97, 98, 32, 99, 100, 34]], [[], [120]], [[121]]] ∧
      Keeps 0 21 (.holding mixedLine) m' := by
  have hline : StrAt (.holding mixedLine) 0 mixedLine :=
    ⟨by simp [BytesAt, Mem.holding, mixedLine], by decide, rfl⟩
  exact split_and_parse hline (by decide)

end Myshell
