import OsLessons.Myshell.Reference

/-! # myshell: parsing undoes quoting

  A command line that is written with every word between single quotes. Both
  scanners pass over the quoted words (`Closed`, `wordOf_quoted`), whatever they
  hold, so that the pieces are the segments and the words of a segment are the
  ones that were quoted.
-/

namespace Myshell

open CString

/-! ### Command lines -/

/-- Whitespace. -/
def Blank (s : List UInt8) : Prop := ∀ c ∈ s, isspace c = true

/-- A word that can stand between single quotes. -/
structure Quotable (w : Word) : Prop where
  no_nul : (0 : UInt8) ∉ w
  no_quote : SQUOTE ∉ w

def quoted (w : Word) : List UInt8 := SQUOTE :: (w ++ [SQUOTE])

/-- The words of a segment, with whitespace between them. -/
inductive SegmentText : List Word → List UInt8 → Prop where
  | last {w : Word} : Quotable w → SegmentText [w] (quoted w)
  | next {w : Word} {ws : List Word} {blank s : List UInt8} : Quotable w → Blank blank →
      blank ≠ [] → SegmentText ws s → SegmentText (w :: ws) (quoted w ++ (blank ++ s))

/-- The segments of a line, with `|` and any whitespace between them. -/
inductive LineText : List (List Word) → List UInt8 → Prop where
  | last {ws : List Word} {s : List UInt8} : SegmentText ws s → LineText [ws] s
  | next {ws : List Word} {wss : List (List Word)} {s blank blank' t : List UInt8} :
      SegmentText ws s → Blank blank → Blank blank' → LineText wss t →
      LineText (ws :: wss) (s ++ (blank ++ PIPE :: (blank' ++ t)))

variable {w : Word} {ws : List Word} {wss : List (List Word)} {s t r blank blank' : List UInt8}
  {c : UInt8}

/-! ### Whitespace -/

theorem not_isspace_squote : ¬ isspace SQUOTE := by decide

theorem Blank.nil : Blank [] := fun _ hc => by cases hc

theorem Blank.tail (h : Blank (c :: s)) : isspace c ∧ Blank s :=
  ⟨h c List.mem_cons_self, fun d hd => h d (List.mem_cons_of_mem _ hd)⟩

theorem Blank.no_nul (h : Blank s) : (0 : UInt8) ∉ s := fun hmem => by
  have hspace := h 0 hmem
  rw [isspace_zero] at hspace
  cases hspace

theorem Blank.dropWhile_append (h : Blank blank) :
    (blank ++ s).dropWhile isspace = s.dropWhile isspace :=
  List.dropWhile_append_of_pos h

theorem Blank.rdropWhile_append (h : Blank blank) :
    (s ++ blank).rdropWhile isspace = s.rdropWhile isspace := by
  have hrev : ∀ c ∈ blank.reverse, isspace c = true := fun c hc => h c (List.mem_reverse.mp hc)
  rw [List.rdropWhile, List.reverse_append, List.dropWhile_append_of_pos hrev]
  rfl

/-- What starts and ends with a quote is what is left without the whitespace around it. -/
theorem trimmed_blank (hblank : Blank blank) (hblank' : Blank blank') (hs : s = SQUOTE :: t)
    (hs' : s = r ++ [SQUOTE]) : trimmed (blank ++ (s ++ blank')) = s := by
  have hfirst : (s ++ blank').dropWhile isspace = s ++ blank' := by
    rw [hs, List.cons_append, List.dropWhile_cons_of_neg not_isspace_squote]
  rw [trimmed, hblank.dropWhile_append, hfirst, hblank'.rdropWhile_append, hs',
    List.rdropWhile_concat_neg _ _ _ not_isspace_squote]

/-! ### The segment splitter -/

/-- The segment splitter passes over `s` and is outside of quotes behind it. -/
def Closed (s : List UInt8) : Prop :=
  ∀ r, cutAt PIPE .out (s ++ r) = (s ++ (cutAt PIPE .out r).1, (cutAt PIPE .out r).2)

theorem Closed.append (hs : Closed s) (ht : Closed t) : Closed (s ++ t) := fun r => by
  rw [List.append_assoc, hs, ht, List.append_assoc]

theorem Blank.closed (h : Blank s) : Closed s := fun r => by
  induction s with
  | nil => rfl
  | cons c s ih =>
    obtain ⟨hspace, hs⟩ := h.tail
    obtain ⟨-, -, hpipe⟩ := ne_of_isspace hspace
    have hcut := ih hs
    simp only [List.cons_append, cutAt, toggle_blank hspace, hcut]
    simp [hpipe]

/-- Inside single quotes. -/
def Quotes.single : Quotes := ⟨true, false⟩

theorem toggle_squote : Quotes.out.toggle SQUOTE = some .single := rfl

theorem toggle_single_squote : Quotes.single.toggle SQUOTE = some .out := rfl

/-- Every other character is ordinary between single quotes. -/
theorem toggle_single (h : c ≠ SQUOTE) : Quotes.single.toggle c = none := by
  simp [Quotes.toggle, Quotes.single, h]

theorem cutAt_single (h : SQUOTE ∉ w) (r : List UInt8) :
    cutAt PIPE .single (w ++ SQUOTE :: r) =
      (w ++ SQUOTE :: (cutAt PIPE .out r).1, (cutAt PIPE .out r).2) := by
  induction w with
  | nil => simp only [List.nil_append, cutAt, toggle_single_squote]
  | cons c w ih =>
    obtain ⟨hc, hw⟩ := List.ne_and_not_mem_of_not_mem_cons h
    simp only [List.cons_append, cutAt, toggle_single hc.symm, ih hw]
    rfl

theorem Quotable.closed (h : Quotable w) : Closed (quoted w) := fun r => by
  have hcut := cutAt_single h.no_quote r
  simp only [quoted, List.cons_append, List.append_assoc, List.nil_append, cutAt, toggle_squote,
    hcut]

theorem SegmentText.closed (h : SegmentText ws s) : Closed s := by
  induction h with
  | last hw => exact hw.closed
  | next hw hblank _ _ ih => exact hw.closed.append (hblank.closed.append ih)

theorem Closed.cutAt (h : Closed s) : Myshell.cutAt PIPE .out s = (s, none) := by
  have hcut := h []
  rwa [List.append_nil, Myshell.cutAt, List.append_nil] at hcut

theorem Closed.cutAt_pipe (h : Closed s) :
    Myshell.cutAt PIPE .out (s ++ PIPE :: r) = (s, some r) := by
  rw [h]
  simp [Myshell.cutAt, Quotes.toggle, Quotes.out, Quotes.isOut, DQUOTE, SQUOTE, PIPE]

/-! ### The word splitter -/

theorem wordOf_single (h : SQUOTE ∉ w) (r : List UInt8) :
    wordOf .single (w ++ SQUOTE :: r) = (w ++ (wordOf .out r).1, (wordOf .out r).2) := by
  induction w with
  | nil => simp only [List.nil_append, wordOf, toggle_single_squote]
  | cons c w ih =>
    obtain ⟨hc, hw⟩ := List.ne_and_not_mem_of_not_mem_cons h
    simp only [List.cons_append, wordOf, toggle_single hc.symm, ih hw]
    rfl

theorem wordOf_quoted (h : Quotable w) (r : List UInt8) :
    wordOf .out (quoted w ++ r) = (w ++ (wordOf .out r).1, (wordOf .out r).2) := by
  have hword := wordOf_single h.no_quote r
  simp only [quoted, List.cons_append, List.append_assoc, List.nil_append, wordOf, toggle_squote,
    hword]

/-- Whitespace ends a word. -/
theorem wordOf_blank (h : isspace c) (r : List UInt8) : wordOf .out (c :: r) = ([], r) := by
  have hout : Quotes.out.isOut = true := rfl
  simp only [wordOf, toggle_blank h, hout, h, Bool.and_self, ↓reduceIte]

theorem wordsOf_quoted (h : Quotable w) (r : List UInt8) :
    wordsOf (quoted w ++ r) = (w ++ (wordOf .out r).1) :: wordsOf (wordOf .out r).2 := by
  have hdrop : (quoted w ++ r).dropWhile isspace = SQUOTE :: (w ++ [SQUOTE] ++ r) :=
    List.dropWhile_cons_of_neg not_isspace_squote
  have hword : wordOf .out (SQUOTE :: (w ++ [SQUOTE] ++ r)) = _ := wordOf_quoted h r
  rw [wordsOf_of_cons hdrop, hword]

/-- Leading whitespace is skipped. -/
theorem wordsOf_blank (h : Blank blank) : wordsOf (blank ++ s) = wordsOf s := by
  cases hs : s.dropWhile isspace with
  | nil => rw [wordsOf_of_nil (h.dropWhile_append.trans hs), wordsOf_of_nil hs]
  | cons c t => rw [wordsOf_of_cons (h.dropWhile_append.trans hs), wordsOf_of_cons hs]

theorem SegmentText.wordsOf (h : SegmentText ws s) : Myshell.wordsOf s = ws := by
  induction h with
  | @last w hw =>
    have hwords := wordsOf_quoted hw []
    rw [List.append_nil] at hwords
    rw [hwords, wordOf, List.append_nil, wordsOf_of_nil rfl]
  | @next w ws blank s hw hblank hne _ ih =>
    cases blank with
    | nil => exact absurd rfl hne
    | cons c blank =>
      obtain ⟨hspace, hblank⟩ := hblank.tail
      rw [wordsOf_quoted hw, List.cons_append, wordOf_blank hspace, wordsOf_blank hblank, ih,
        List.append_nil]

/-! ### The line -/

theorem SegmentText.ends (h : SegmentText ws s) :
    (∃ t, s = SQUOTE :: t) ∧ ∃ r, s = r ++ [SQUOTE] := by
  induction h with
  | @last w _ => exact ⟨⟨_, rfl⟩, SQUOTE :: w, rfl⟩
  | @next w ws blank s _ _ _ _ ih =>
    obtain ⟨-, r, hr⟩ := ih
    refine ⟨⟨_, rfl⟩, quoted w ++ (blank ++ r), ?_⟩
    rw [hr, List.append_assoc, List.append_assoc]

theorem LineText.ends (h : LineText wss s) :
    (∃ t, s = SQUOTE :: t) ∧ ∃ r, s = r ++ [SQUOTE] := by
  induction h with
  | last hs => exact hs.ends
  | @next ws wss s blank blank' t hs _ _ _ ih =>
    obtain ⟨⟨a, ha⟩, -⟩ := hs.ends
    obtain ⟨-, r, hr⟩ := ih
    refine ⟨⟨a ++ (blank ++ PIPE :: (blank' ++ t)), ?_⟩,
      s ++ (blank ++ PIPE :: (blank' ++ r)), ?_⟩
    · rw [ha]
      rfl
    · rw [hr]
      simp only [List.append_assoc, List.cons_append]

theorem SegmentText.trimmed (h : SegmentText ws s) (hblank : Blank blank)
    (hblank' : Blank blank') : Myshell.trimmed (blank ++ (s ++ blank')) = s := by
  obtain ⟨⟨_, hfirst⟩, _, hlast⟩ := h.ends
  exact trimmed_blank hblank hblank' hfirst hlast

theorem SegmentText.filter (h : SegmentText ws s) : [s].filter (· ≠ []) = [s] := by
  obtain ⟨⟨_, hfirst⟩, -⟩ := h.ends
  simp [hfirst]

theorem LineText.segmentsOf (h : LineText wss s) (hblank : Blank blank) :
    (Myshell.segmentsOf PIPE (blank ++ s)).map Myshell.wordsOf = wss := by
  induction h generalizing blank with
  | @last ws s hs =>
    have hcut := (hblank.closed.append hs.closed).cutAt
    have htrim := hs.trimmed hblank .nil
    rw [List.append_nil] at htrim
    rw [segmentsOf_of_none (by rw [hcut]), htrim, hs.filter, List.map_singleton, hs.wordsOf]
  | @next ws wss s blank₁ blank₂ t hs hblank₁ hblank₂ _ ih =>
    have hcut := ((hblank.closed.append hs.closed).append hblank₁.closed).cutAt_pipe
      (r := blank₂ ++ t)
    simp only [List.append_assoc] at hcut
    have htrim := hs.trimmed hblank hblank₁
    rw [segmentsOf_of_some (by rw [hcut]), hcut, htrim, hs.filter, List.map_append,
      List.map_singleton, hs.wordsOf, ih hblank₂]
    rfl

theorem Quotable.no_nul_quoted (h : Quotable w) : (0 : UInt8) ∉ quoted w := by
  have hne : (0 : UInt8) ≠ SQUOTE := by decide
  simp [quoted, h.no_nul, hne]

theorem SegmentText.no_nul (h : SegmentText ws s) : (0 : UInt8) ∉ s := by
  induction h with
  | last hw => exact hw.no_nul_quoted
  | next hw hblank _ _ ih => simp [hw.no_nul_quoted, hblank.no_nul, ih]

theorem LineText.no_nul (h : LineText wss s) : (0 : UInt8) ∉ s := by
  induction h with
  | last hs => exact hs.no_nul
  | next hs hblank hblank' _ ih =>
    have hne : (0 : UInt8) ≠ PIPE := by decide
    simp [hs.no_nul, hblank.no_nul, hblank'.no_nul, ih, hne]

/-- A line of quoted words is read back as these words, through pointers into
    the one buffer, whose every part has been overwritten by then. -/
theorem parse_quoted (h : LineText wss t) (hblank : Blank blank) (hblank' : Blank blank')
    {m : Mem} {line fuel : ℕ} (hm : BytesAt m line (blank ++ (t ++ blank')))
    (hnul : m (line + (blank ++ (t ++ blank')).length) = 0)
    (hfuel : (blank ++ (t ++ blank')).length < fuel) :
    ∃ argvs m', parse_line fuel m line = some (argvs, m') ∧ Shows m' argvs wss := by
  obtain ⟨⟨_, hfirst⟩, _, hlast⟩ := h.ends
  have hstr : StrAt m line (blank ++ (t ++ blank')) := by
    refine ⟨hm, ?_, hnul⟩
    simp [hblank.no_nul, h.no_nul, hblank'.no_nul]
  obtain ⟨argvs, m', hparse, hshows⟩ := parse_line_spec hstr hfuel
  have hsegs := h.segmentsOf .nil
  rw [List.nil_append] at hsegs
  rw [trimmed_blank hblank hblank' hfirst hlast, hsegs] at hshows
  exact ⟨argvs, m', hparse, hshows⟩

/-- The words `a b` and `|`, a bar, and an empty word, behind a blank. -/
theorem parse_quoted_three :
    ∃ argvs m', parse_line 20
        (.holding [32, 39, 97, 32, 98, 39, 9, 39, 124, 39, 124, 32, 39, 39]) 0 = some (argvs, m') ∧
      Shows m' argvs [[[97, 32, 98], [124]], [[]]] := by
  have hblank : ∀ c, isspace c → Blank [c] := fun c hc d hd => by
    rw [List.mem_singleton] at hd
    rwa [hd]
  have hfirst : SegmentText [[97, 32, 98], [124]] [39, 97, 32, 98, 39, 9, 39, 124, 39] :=
    .next ⟨by decide, by decide⟩ (hblank 9 rfl) (by decide)
      (.last ⟨by decide, by decide⟩)
  have hline : LineText [[[97, 32, 98], [124]], [[]]]
      [39, 97, 32, 98, 39, 9, 39, 124, 39, 124, 32, 39, 39] :=
    .next hfirst .nil (hblank 32 rfl)
      (.last (.last ⟨by decide, by decide⟩))
  exact parse_quoted hline (hblank 32 rfl) .nil
    (by simp [BytesAt, Mem.holding]) rfl (by decide)

end Myshell
