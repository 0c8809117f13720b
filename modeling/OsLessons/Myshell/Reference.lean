import OsLessons.Myshell.Tokens

/-! # myshell: the line as a list

  The same splitting on lists, where nothing is overwritten: cut the line at
  `|` outside of quotes, trim the pieces, drop the empty ones, cut each at
  whitespace outside of quotes and drop the quotes. `parse_line_spec` says that
  the pointers of the in-place code show exactly these words, at the end, when
  all parts of the buffer have been overwritten.
-/

namespace Myshell

open CString

/-! ### Splitting a list -/

/-- `s` without whitespace at both ends. -/
def trimmed (s : List UInt8) : List UInt8 := (s.dropWhile isspace).rdropWhile isspace

/-- Up to the first delimiter outside of quotes, and what comes after it. -/
def cutAt (delim : UInt8) : Quotes → List UInt8 → List UInt8 × Option (List UInt8)
  | _, [] => ([], none)
  | q, c :: s =>
      match q.toggle c with
      | some q => (c :: (cutAt delim q s).1, (cutAt delim q s).2)
      | none =>
          if q.isOut && c == delim then ([], some s)
          else (c :: (cutAt delim q s).1, (cutAt delim q s).2)

theorem cutAt_eq (delim : UInt8) (q : Quotes) (s : List UInt8) :
    s = (cutAt delim q s).1 ++ ((cutAt delim q s).2.map (delim :: ·)).getD [] := by
  induction s generalizing q with
  | nil => rfl
  | cons c s ih =>
    simp only [cutAt]
    split
    · next q' _ =>
      rw [List.cons_append]
      exact congrArg (c :: ·) (ih q')
    · split
      · next hdelim =>
        rw [Bool.and_eq_true, beq_iff_eq] at hdelim
        simp [hdelim.2]
      · rw [List.cons_append]
        exact congrArg (c :: ·) (ih q)

theorem length_of_cutAt {delim : UInt8} {q : Quotes} {s r : List UInt8}
    (h : (cutAt delim q s).2 = some r) : s.length = (cutAt delim q s).1.length + 1 + r.length := by
  have heq := congrArg List.length (cutAt_eq delim q s)
  rw [h] at heq
  simp only [Option.map_some, Option.getD_some, List.length_append, List.length_cons] at heq
  omega

/-- The pieces between delimiters outside of quotes. -/
def pieces (delim : UInt8) (s : List UInt8) : List (List UInt8) :=
  match _h : cutAt delim .out s with
  | (a, none) => [a]
  | (a, some r) => a :: pieces delim r
termination_by s.length
decreasing_by
  have hlength := length_of_cutAt (congrArg Prod.snd _h)
  omega

theorem pieces_of_none {delim : UInt8} {s : List UInt8} (h : (cutAt delim .out s).2 = none) :
    pieces delim s = [s] := by
  rw [pieces]
  split
  · next a hcut =>
    have heq := cutAt_eq delim .out s
    rw [hcut] at heq
    simp only [Option.map_none, Option.getD_none, List.append_nil] at heq
    rw [← heq]
  · next a r hcut =>
    rw [hcut] at h
    cases h

theorem pieces_of_some {delim : UInt8} {s r : List UInt8} (h : (cutAt delim .out s).2 = some r) :
    pieces delim s = (cutAt delim .out s).1 :: pieces delim r := by
  rw [pieces]
  split
  · next a hcut =>
    rw [hcut] at h
    cases h
  · next a r' hcut =>
    rw [hcut] at h ⊢
    cases h
    rfl

/-- The trimmed pieces that are not empty. -/
def segmentsOf (delim : UInt8) (s : List UInt8) : List (List UInt8) :=
  ((pieces delim s).map trimmed).filter (· ≠ [])

/-- One word without its quotes, and what comes after the whitespace that ends it. -/
def wordOf : Quotes → List UInt8 → List UInt8 × List UInt8
  | _, [] => ([], [])
  | q, c :: s =>
      match q.toggle c with
      | some q => wordOf q s
      | none =>
          if q.isOut && isspace c then ([], s)
          else (c :: (wordOf q s).1, (wordOf q s).2)

theorem length_wordOf_le (q : Quotes) (s : List UInt8) :
    (wordOf q s).1.length + (wordOf q s).2.length ≤ s.length := by
  induction s generalizing q with
  | nil => exact le_rfl
  | cons c s ih =>
    simp only [wordOf]
    split
    · next q' _ =>
      have hrec := ih q'
      rw [List.length_cons]
      omega
    · split
      · simp
      · have hrec := ih q
        simp only [List.length_cons]
        omega

/-- A word takes at least one character away. -/
theorem length_wordOf_lt (q : Quotes) (c : UInt8) (s : List UInt8) :
    (wordOf q (c :: s)).2.length ≤ s.length := by
  simp only [wordOf]
  split
  · next q' _ =>
    have hle := length_wordOf_le q' s
    omega
  · split
    · exact le_rfl
    · have hle := length_wordOf_le q s
      simp only
      omega

/-- The words of a segment. -/
def wordsOf (s : List UInt8) : List Word :=
  match _h : s.dropWhile isspace with
  | [] => []
  | c :: t => (wordOf .out (c :: t)).1 :: wordsOf (wordOf .out (c :: t)).2
termination_by s.length
decreasing_by
  have hlt := length_wordOf_lt .out c t
  have hle := (List.dropWhile_suffix (l := s) isspace).length_le
  rw [_h, List.length_cons] at hle
  omega

theorem wordsOf_of_nil {s : List UInt8} (h : s.dropWhile isspace = []) : wordsOf s = [] := by
  rw [wordsOf]
  split
  · rfl
  · next c t hdrop =>
    rw [h] at hdrop
    cases hdrop

theorem wordsOf_of_cons {s t : List UInt8} {c : UInt8} (h : s.dropWhile isspace = c :: t) :
    wordsOf s = (wordOf .out (c :: t)).1 :: wordsOf (wordOf .out (c :: t)).2 := by
  rw [wordsOf]
  split
  · next hdrop =>
    rw [h] at hdrop
    cases hdrop
  · next c' t' hdrop =>
    rw [h] at hdrop
    cases hdrop
    rfl

/-! ### `trim` -/

variable {m : Mem} {p : ℕ} {s : List UInt8} {fuel : ℕ}

theorem trim_end_self (p : ℕ) (m : Mem) : trim_end p p m = m := by
  cases p with
  | zero => rfl
  | succ p => simp [trim_end]

/-- Trailing whitespace is overwritten from the right, up to a first character
    that is none. -/
theorem trim_end_spec {c : UInt8} (hc : ¬ isspace c) (s : List UInt8) :
    ∀ m, StrAt m p (c :: s) →
      StrAt (trim_end p (p + s.length) m) p ((c :: s).rdropWhile isspace) ∧
        Keeps p (p + s.length) m (trim_end p (p + s.length) m) := by
  induction s using List.reverseRecOn with
  | nil =>
    intro m h
    rw [List.length_nil, Nat.add_zero, trim_end_self]
    exact ⟨by simpa [List.rdropWhile, hc] using h, .refl _ _ _⟩
  | append_singleton s d ih =>
    intro m h
    have hsplit : c :: (s ++ [d]) = (c :: s) ++ [d] := rfl
    have hlast : m (p + (s.length + 1)) = d := by
      rw [hsplit] at h
      exact h.bytes.append.2.1
    rw [List.length_append, List.length_singleton, hsplit, List.rdropWhile_concat]
    by_cases hd : isspace d
    · rw [if_pos hd]
      have hstep : trim_end p (p + (s.length + 1)) m =
          trim_end p (p + s.length) (m.set (p + (s.length + 1)) 0) := by
        show (if _ then _ else _) = _
        rw [if_pos]
        · rfl
        · constructor
          · show p + s.length + 1 > p
            omega
          · show isspace (m (p + (s.length + 1))) = true
            rw [hlast]
            exact hd
      obtain ⟨hstr, hkeeps⟩ := ih _ (StrAt.cut (s := c :: s) (t := [d]) h)
      rw [hstep]
      refine ⟨hstr, Keeps.trans ?_ (hkeeps.mono le_rfl (by omega))⟩
      exact Keeps.set (by omega) le_rfl
    · have hstop : trim_end p (p + (s.length + 1)) m = m := by
        show (if _ then _ else _) = _
        rw [if_neg]
        rintro ⟨-, hspace⟩
        change isspace (m (p + (s.length + 1))) = true at hspace
        rw [hlast] at hspace
        exact hd hspace
      rw [if_neg hd, hstop]
      exact ⟨h, .refl _ _ _⟩

theorem length_trimmed_le (s : List UInt8) :
    (s.takeWhile isspace).length + (trimmed s).length ≤ s.length := by
  have hle := (List.rdropWhile_prefix isspace (l := s.dropWhile isspace)).length_le
  have hlength := congrArg List.length (List.takeWhile_append_dropWhile (p := isspace) (l := s))
  rw [List.length_append] at hlength
  unfold trimmed
  omega

theorem trim_spec (h : StrAt m p s) (hfuel : s.length < fuel) :
    ∃ p' m', trim fuel m p = some (p', m') ∧ StrAt m' p' (trimmed s) ∧ p ≤ p' ∧
      p' + (trimmed s).length ≤ p + s.length ∧ Keeps p (p + s.length) m m' ∧
      m' (p + s.length) = 0 := by
  have hskip := skip_spaces_eq h hfuel
  have hle := length_trimmed_le s
  have hrest := h.skip
  have hlength := congrArg List.length (List.takeWhile_append_dropWhile (p := isspace) (l := s))
  rw [List.length_append] at hlength
  generalize hp' : p + (s.takeWhile isspace).length = p' at hskip hrest
  cases hdrop : s.dropWhile isspace with
  | nil =>
    rw [hdrop] at hrest
    have hnul : m p' = 0 := hrest.nul
    refine ⟨p', m, by simp [trim, hskip, hnul], ?_, by omega, by omega, .refl _ _ _, h.nul⟩
    rwa [trimmed, hdrop]
  | cons c t =>
    have hc : ¬ isspace c := by
      have hhead := List.head?_dropWhile_not isspace s
      rw [hdrop] at hhead
      simpa using hhead
    rw [hdrop] at hrest hlength
    obtain ⟨hm, hne, -⟩ := hrest.tail
    have hlen := strlen_eq hrest (show (c :: t).length < fuel by omega)
    obtain ⟨hstr, hkeeps⟩ := trim_end_spec hc t m hrest
    have hlast : p' + (t.length + 1) - 1 = p' + t.length := by omega
    rw [List.length_cons] at hlength
    refine ⟨p', trim_end p' (p' + t.length) m, ?_, ?_, by omega, by omega, ?_, ?_⟩
    · simp [trim, hskip, hm, hne, hlen, hlast]
    · rwa [trimmed, hdrop]
    · exact hkeeps.mono (by omega) (by omega)
    · rw [hkeeps _ (by omega), h.nul]

/-! ### `split_segments` -/

variable {delim : UInt8}

theorem scan_segment_eq {q : Quotes} (h : StrAt m p s) (hfuel : s.length < fuel) :
    scan_segment delim fuel m q p = some (p + (cutAt delim q s).1.length) := by
  induction fuel generalizing p s q with
  | zero => cases hfuel
  | succ fuel ih =>
    cases s with
    | nil =>
      have hnul : m p = 0 := h.nul
      simp [scan_segment, hnul, cutAt]
    | cons c s =>
      obtain ⟨hc, hne, hs⟩ := h.tail
      have hrec : ∀ q, scan_segment delim fuel m q (p + 1) =
          some (p + 1 + (cutAt delim q s).1.length) := fun q =>
        ih hs (Nat.lt_of_succ_lt_succ hfuel)
      have hnext : ∀ n, some (p + 1 + n) = some (p + (n + 1)) := fun n => by
        rw [Option.some.injEq]
        omega
      cases htoggle : q.toggle c with
      | some q' =>
        simp only [scan_segment, hc, hne, ↓reduceIte, cutAt, htoggle, hrec]
        exact hnext _
      | none =>
        by_cases hdelim : (q.isOut && c == delim) = true
        · simp only [scan_segment, hc, hne, ↓reduceIte, cutAt, htoggle, hdelim]
          rfl
        · simp only [scan_segment, hc, hne, ↓reduceIte, cutAt, htoggle, hdelim, hrec]
          exact hnext _

theorem segmentsOf_of_none (h : (cutAt delim .out s).2 = none) :
    segmentsOf delim s = [trimmed s].filter (· ≠ []) := by
  rw [segmentsOf, pieces_of_none h]
  rfl

theorem segmentsOf_of_some {r : List UInt8} (h : (cutAt delim .out s).2 = some r) :
    segmentsOf delim s =
      [trimmed (cutAt delim .out s).1].filter (· ≠ []) ++ segmentsOf delim r := by
  rw [segmentsOf, pieces_of_some h, List.map_cons, List.filter_cons]
  by_cases hnil : trimmed (cutAt delim .out s).1 = [] <;> simp [hnil, segmentsOf]

@[simp] theorem segmentsOf_nil : segmentsOf delim [] = [] := by
  rw [segmentsOf_of_none rfl]
  rfl

/-- `if (*clean) arr[n++] = clean` -/
theorem laid_clean {clean lo hi : ℕ} {t : List UInt8} (h : StrAt m clean t) (hlo : lo ≤ clean)
    (hhi : clean + t.length ≤ hi) (arr : PtrArray) :
    ∃ ps, (if m clean ≠ 0 then arr.push clean else arr).ptrs = arr.ptrs ++ ps ∧
      Laid m hi lo ps ([t].filter (· ≠ [])) := by
  by_cases hnil : t = []
  · refine ⟨[], ?_, ?_⟩
    · rw [if_neg (not_not.mpr (h.eq_nil_iff.mpr hnil)), List.append_nil]
    · rw [hnil]
      exact .nil
  · refine ⟨[clean], ?_, ?_⟩
    · rw [if_pos fun hzero => hnil (h.eq_nil_iff.mp hzero)]
      rfl
    · rw [List.filter_cons, if_pos (decide_eq_true hnil)]
      exact .cons hlo hhi h .nil

theorem split_segments_from_spec (hdelim : delim ≠ 0) (arr : PtrArray) (h : StrAt m p s)
    (hfuel : s.length < fuel) :
    ∃ arr' m' ps, split_segments_from delim fuel m p arr = some (arr', m') ∧
      arr'.ptrs = arr.ptrs ++ ps ∧ Laid m' (p + s.length) p ps (segmentsOf delim s) ∧
      Keeps p (p + s.length) m m' := by
  induction fuel generalizing m p s arr with
  | zero => cases hfuel
  | succ fuel ih =>
    have hscan : scan_segment delim (fuel + 1) m .out p = _ := scan_segment_eq h hfuel
    have hsplit := cutAt_eq delim .out s
    cases hrest : (cutAt delim .out s).2 with
    | none =>
      rw [hrest, Option.map_none, Option.getD_none, List.append_nil] at hsplit
      rw [← hsplit] at hscan
      obtain ⟨clean, m', htrim, hclean, hlo, hhi, hkeeps, hnul⟩ := trim_spec h hfuel
      obtain ⟨ps, hps, hlaid⟩ := laid_clean hclean hlo hhi arr
      refine ⟨_, m', ps, ?_, hps, ?_, hkeeps⟩
      · -- the loop has stopped at the zero behind the string
        simp [split_segments_from, hscan, h.nul, hdelim.symm, htrim, hnul]
      · rwa [segmentsOf_of_none hrest]
    | some r =>
      rw [hrest, Option.map_some, Option.getD_some] at hsplit
      generalize ha : (cutAt delim .out s).1 = a at hscan hsplit
      rw [hsplit] at h
      have hlength : s.length = a.length + (r.length + 1) := by
        rw [hsplit, List.length_append, List.length_cons]
      obtain ⟨hmdelim, -, hr⟩ := h.drop.tail
      -- the delimiter becomes the zero behind the segment
      have hset : Keeps (p + a.length) (p + a.length) m (m.set (p + a.length) 0) :=
        Keeps.set le_rfl le_rfl
      have hr₁ := hset.strAt hr (.inr (by omega))
      obtain ⟨clean, m₂, htrim, hclean, hlo, hhi, hkeeps, -⟩ :=
        trim_spec h.cut (show a.length < fuel + 1 by omega)
      have hr₂ := hkeeps.strAt hr₁ (.inr (by omega))
      obtain ⟨ps, hps, hlaid⟩ := laid_clean hclean hlo hhi arr
      have hkeeps₂ : Keeps p (p + s.length) m m₂ :=
        (hset.mono (by omega) (by omega)).trans (hkeeps.mono le_rfl (by omega))
      have hstep : split_segments_from delim (fuel + 1) m p arr =
          if m₂ (p + a.length + 1) = 0 then
            some (if m₂ clean ≠ 0 then arr.push clean else arr, m₂)
          else
            split_segments_from delim fuel m₂ (p + a.length + 1)
              (if m₂ clean ≠ 0 then arr.push clean else arr) := by
        simp [split_segments_from, hscan, hmdelim, htrim]
      rw [segmentsOf_of_some hrest, ha, hstep]
      by_cases hnil : r = []
      · -- nothing comes after the delimiter
        rw [if_pos (hr₂.eq_nil_iff.mpr hnil), hnil, segmentsOf_nil, List.append_nil]
        exact ⟨_, m₂, ps, rfl, hps, hlaid.mono le_rfl (by omega), hkeeps₂⟩
      · rw [if_neg fun hzero => hnil (hr₂.eq_nil_iff.mp hzero)]
        obtain ⟨arr', m₃, ps', hrec, hps', hlaid', hkeeps₃⟩ := ih _ hr₂ (by omega)
        rw [hps, List.append_assoc] at hps'
        have hend : p + a.length + 1 + r.length = p + s.length := by omega
        rw [hend] at hlaid' hkeeps₃
        refine ⟨arr', m₃, ps ++ ps', hrec, hps', ?_, hkeeps₂.trans (hkeeps₃.mono (by omega) le_rfl)⟩
        exact (hlaid.keeps hkeeps₃ (.inl (by omega))).append hlaid' (by omega) (by omega) (by omega)

/-! ### `parse_argv` -/

theorem mem_of_wordOf {q : Quotes} {c : UInt8} (h : c ∈ (wordOf q s).1) : c ∈ s := by
  induction s generalizing q with
  | nil => exact h
  | cons d s ih =>
    simp only [wordOf] at h
    split at h
    · exact List.mem_cons_of_mem _ (ih h)
    · split at h
      · cases h
      · rcases List.mem_cons.mp h with rfl | h
        · exact List.mem_cons_self ..
        · exact List.mem_cons_of_mem _ (ih h)

/-- The word is copied to `w`, which never gets ahead of what is read. -/
theorem copy_word_spec {q : Quotes} {w : ℕ} (h : StrAt m p s) (hw : w ≤ p)
    (hfuel : s.length < fuel) :
    ∃ p' m', copy_word fuel m q p w = some (p', w + (wordOf q s).1.length, m') ∧
      p' + (wordOf q s).2.length = p + s.length ∧ BytesAt m' w (wordOf q s).1 ∧
      StrAt m' p' (wordOf q s).2 ∧
      (∀ i, i < w ∨ w + (wordOf q s).1.length ≤ i → m' i = m i) ∧
      (w + (wordOf q s).1.length < p' ∨ w + (wordOf q s).1.length ≤ p' ∧ (wordOf q s).2 = []) := by
  induction fuel generalizing m p s q w with
  | zero => cases hfuel
  | succ fuel ih =>
    cases s with
    | nil =>
      have hnul : m p = 0 := h.nul
      exact ⟨p, m, by simp [copy_word, hnul, wordOf], rfl, trivial, h, fun _ _ => rfl,
        .inr ⟨hw, rfl⟩⟩
    | cons c s =>
      obtain ⟨hc, hne, hs⟩ := h.tail
      have hfuel' := Nat.lt_of_succ_lt_succ hfuel
      cases htoggle : q.toggle c with
      | some q' =>
        obtain ⟨p', m', hcopy, hend, hbytes, hstr, hframe, hroom⟩ :=
          ih (q := q') (w := w) hs (by omega) hfuel'
        simp only [copy_word, hc, hne, ↓reduceIte, wordOf, htoggle]
        refine ⟨p', m', hcopy, ?_, hbytes, hstr, hframe, hroom⟩
        rw [List.length_cons]
        omega
      | none =>
        by_cases hspace : (q.isOut && isspace c) = true
        · simp only [copy_word, hc, hne, ↓reduceIte, wordOf, htoggle, hspace]
          refine ⟨p + 1, m, rfl, ?_, trivial, hs, fun _ _ => rfl, .inl (Nat.lt_succ_of_le hw)⟩
          rw [List.length_cons]
          omega
        · -- `w` is behind what is still to be read
          have hs' : StrAt (m.set w c) (p + 1) s :=
            hs.congr fun i hi _ => Mem.set_ne _ _ (by omega)
          obtain ⟨p', m', hcopy, hend, hbytes, hstr, hframe, hroom⟩ :=
            ih (q := q) (w := w + 1) hs' (by omega) hfuel'
          have hlen : w + 1 + (wordOf q s).1.length = w + ((wordOf q s).1.length + 1) := by omega
          rw [hlen] at hcopy hframe hroom
          simp only [copy_word, hc, hne, ↓reduceIte, wordOf, htoggle, hspace, Bool.false_eq_true,
            List.length_cons]
          refine ⟨p', m', hcopy, by omega, ⟨?_, hbytes⟩, hstr, ?_, hroom⟩
          · rw [hframe w (.inl (by omega)), Mem.set_self]
          · intro i hi
            rw [hframe i (by omega), Mem.set_ne _ _ (by omega)]

theorem parse_argv_from_nul (argv : PtrArray) (hfuel : 0 < fuel) (h : m p = 0) :
    parse_argv_from fuel m p argv = some (argv.terminate, m) := by
  cases fuel with
  | zero => cases hfuel
  | succ fuel => simp [parse_argv_from, h]

theorem parse_argv_from_spec (argv : PtrArray) (h : StrAt m p s) (hfuel : s.length < fuel) :
    ∃ argv' m' ps, parse_argv_from fuel m p argv = some (argv', m') ∧
      argv'.ptrs = argv.ptrs ++ ps ∧ Laid m' (p + s.length) p ps (wordsOf s) ∧
      Keeps p (p + s.length) m m' := by
  induction fuel generalizing m p s argv with
  | zero => cases hfuel
  | succ fuel ih =>
    by_cases hnil : s = []
    · rw [parse_argv_from_nul argv (Nat.succ_pos _) (h.eq_nil_iff.mpr hnil), hnil]
      refine ⟨_, m, [], rfl, (List.append_nil _).symm, ?_, .refl _ _ _⟩
      rw [wordsOf_of_nil rfl]
      exact .nil
    have hskip := skip_spaces_eq h hfuel
    have hrest := h.skip
    have hlength := congrArg List.length (List.takeWhile_append_dropWhile (p := isspace) (l := s))
    rw [List.length_append] at hlength
    generalize hstart : p + (s.takeWhile isspace).length = start at hskip hrest
    have hne : m p ≠ 0 := fun hzero => hnil (h.eq_nil_iff.mp hzero)
    cases hdrop : s.dropWhile isspace with
    | nil =>
      rw [hdrop] at hrest
      have hnul : m start = 0 := hrest.nul
      refine ⟨argv.terminate, m, [], by simp [parse_argv_from, hne, hskip, hnul],
        (List.append_nil _).symm, ?_, .refl _ _ _⟩
      rw [wordsOf_of_nil hdrop]
      exact .nil
    | cons c t =>
      rw [hdrop] at hrest hlength
      have hstart₀ : m start ≠ 0 := by
        rw [hrest.tail.1]
        exact hrest.tail.2.1
      have hlt := length_wordOf_lt .out c t
      have hmem : ∀ d, d ∈ (wordOf .out (c :: t)).1 → d ∈ c :: t := fun d => mem_of_wordOf
      obtain ⟨p', m₁, hcopy, hend, hbytes, hstr, hframe, hroom⟩ :=
        copy_word_spec (q := .out) hrest le_rfl (show (c :: t).length < fuel + 1 by omega)
      rw [wordsOf_of_cons hdrop]
      generalize wordOf .out (c :: t) = result at *
      obtain ⟨word, r⟩ := result
      simp only at hcopy hend hbytes hstr hframe hroom hlt hmem ⊢
      rw [List.length_cons] at hend hlength
      have hstep : parse_argv_from (fuel + 1) m p argv =
          parse_argv_from fuel (m₁.set (start + word.length) 0) p' (argv.push start) := by
        simp [parse_argv_from, hne, hskip, hstart₀, hcopy]
      -- the zero behind the word
      have hword : StrAt (m₁.set (start + word.length) 0) start word := by
        refine ⟨hbytes.congr fun i _ hi => Mem.set_ne _ _ (by omega), ?_, Mem.set_self ..⟩
        exact fun hzero => hrest.no_nul (hmem 0 hzero)
      have hkeeps : Keeps p (p + s.length) m (m₁.set (start + word.length) 0) := by
        intro i hi
        rw [Mem.set_ne _ _ (by omega), hframe i (by omega)]
      rw [hstep]
      by_cases hr : r = []
      · have hnul : (m₁.set (start + word.length) 0) p' = 0 := by
          rcases eq_or_ne p' (start + word.length) with heq | hne'
          · rw [heq, Mem.set_self]
          · rw [Mem.set_ne _ _ hne', hstr.eq_nil_iff.mpr hr]
        rw [parse_argv_from_nul _ (by omega) hnul, hr, wordsOf_of_nil rfl]
        exact ⟨_, _, [start], rfl, rfl, .cons (by omega) (by omega) hword .nil, hkeeps⟩
      · have hlast : start + word.length < p' := by
          rcases hroom with hlt' | ⟨-, hnil'⟩
          · exact hlt'
          · exact absurd hnil' hr
        have hr₂ : StrAt (m₁.set (start + word.length) 0) p' r :=
          hstr.congr fun i hi _ => Mem.set_ne _ _ (by omega)
        obtain ⟨argv', m', ps, hrec, hps, hlaid, hkeeps'⟩ := ih (argv.push start) hr₂ (by omega)
        have hend' : p' + r.length = p + s.length := by omega
        rw [hend'] at hlaid hkeeps'
        refine ⟨argv', m', start :: ps, hrec, ?_, ?_, hkeeps.trans (hkeeps'.mono (by omega) le_rfl)⟩
        · rw [hps, PtrArray.push_ptrs, List.append_assoc]
          rfl
        · exact .cons (by omega) (by omega) (hkeeps'.strAt hword (.inl (by omega)))
            (hlaid.mono (by omega) le_rfl)

/-! ### The line -/

/-- Each argument vector holds pointers to its words. -/
def Shows (m : Mem) (argvs : List PtrArray) (lines : List (List Word)) : Prop :=
  List.Forall₂ (fun argv words => List.Forall₂ (StrAt m) argv.ptrs words) argvs lines

/-- What is written for a segment stays within the segment. -/
theorem parse_segments_spec {hi lo : ℕ} {ps : List ℕ} {ss : List (List UInt8)}
    (h : Laid m hi lo ps ss) (hfuel : hi < lo + fuel) :
    ∃ argvs m', parse_segments fuel m ps = some (argvs, m') ∧
      Shows m' argvs (ss.map wordsOf) ∧ Keeps lo hi m m' := by
  induction ss generalizing m lo ps with
  | nil =>
    cases h
    exact ⟨[], m, rfl, .nil, .refl _ _ _⟩
  | cons s ss ih =>
    obtain _ | ⟨hle, hend, hs, hlaid⟩ := h
    rename_i p ps
    obtain ⟨argv, m₁, words, hargv, hwords, hstrs, hkeeps⟩ :=
      parse_argv_from_spec .alloc hs (show s.length < fuel by omega)
    have hlaid₁ := hlaid.keeps hkeeps (.inr (by omega))
    obtain ⟨argvs, m', hparse, hshows, hkeeps'⟩ := ih hlaid₁ (by omega)
    refine ⟨argv :: argvs, m', by simp [parse_segments, parse_argv, hargv, hparse], ?_, ?_⟩
    · refine .cons ?_ hshows
      rw [hwords]
      exact (hstrs.keeps hkeeps' (.inl (by omega))).forall₂
    · exact (hkeeps.mono hle hend).trans (hkeeps'.mono (by omega) le_rfl)

/-- What `main` reads through its pointers, at the end, is the line split as a list. -/
theorem parse_line_spec (h : StrAt m p s) (hfuel : s.length < fuel) :
    ∃ argvs m', parse_line fuel m p = some (argvs, m') ∧
      Shows m' argvs ((segmentsOf PIPE (trimmed s)).map wordsOf) := by
  obtain ⟨ln, m₁, htrim, hstr, hle, hend, -, -⟩ := trim_spec h hfuel
  by_cases hnil : trimmed s = []
  · refine ⟨[], m₁, by simp [parse_line, htrim, hstr.eq_nil_iff.mpr hnil], ?_⟩
    rw [hnil, segmentsOf_nil]
    exact .nil
  · have hne : m₁ ln ≠ 0 := fun hzero => hnil (hstr.eq_nil_iff.mp hzero)
    obtain ⟨segments, m₂, ps, hsplit, hps, hlaid, -⟩ :=
      split_segments_from_spec (show PIPE ≠ 0 by decide) .alloc hstr
        (show (trimmed s).length < fuel by omega)
    obtain ⟨argvs, m', hparse, hshows, -⟩ := parse_segments_spec hlaid
      (show ln + (trimmed s).length < ln + fuel by omega)
    have hptrs : segments.ptrs = ps := hps
    refine ⟨argvs, m', ?_, hshows⟩
    simp [parse_line, htrim, hne, split_segments, hsplit, hptrs, hparse]

end Myshell
