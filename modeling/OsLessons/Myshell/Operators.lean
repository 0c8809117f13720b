import OsLessons.Myshell.Marks
import OsLessons.Myshell.Quoting

/-! # myshell: redirection operators and quotes

  `extract_redirs` sees words without their quotes, so that it takes a quoted
  `>` for an operator. `roles` is what it takes each word for; a word that
  spells an operator is one unless it is the file of the operator before it
  (`roles_eq_op`). A single builtin runs in the parent, where no word is taken
  for an operator.
-/

namespace Myshell

open CString

/-! ### What a word is taken for -/

def isOperator (w : Word) : Bool := w = LT || w = GT || w = GTGT

inductive Role where
  | arg | op | file
  deriving DecidableEq

/-- What `extract_redirs` takes the words of an argument vector for. -/
def roles : List Word → List Role
  | [] => []
  | w :: ws =>
      if isOperator w then
        match ws with
        | [] => [.op]
        | _ :: ws => .op :: .file :: roles ws
      else .arg :: roles ws

/-- The words that are left as arguments. -/
def arguments (ws : List Word) : List Word :=
  ((ws.zip (roles ws)).filter (·.2 = .arg)).map Prod.fst

variable {w : Word} {ws : List Word}

theorem isOperator_iff : isOperator w = true ↔ w = LT ∨ w = GT ∨ w = GTGT := by
  simp [isOperator, or_assoc]

theorem roles_operator (h : isOperator w) (path : Word) (ws : List Word) :
    roles (w :: path :: ws) = .op :: .file :: roles ws := by
  rw [roles, if_pos h]

theorem roles_argument (h : ¬ isOperator w) (ws : List Word) :
    roles (w :: ws) = .arg :: roles ws := by
  cases ws <;> simp [roles, h]

theorem arguments_operator (h : isOperator w) (path : Word) (ws : List Word) :
    arguments (w :: path :: ws) = arguments ws := by
  simp [arguments, roles_operator h]

theorem arguments_argument (h : ¬ isOperator w) (ws : List Word) :
    arguments (w :: ws) = w :: arguments ws := by
  simp [arguments, roles_argument h]

/-- One operator of the loop, with its file. -/
theorem extract_redirs_loop_operator (h : isOperator w) (path : Word) (ws kept : List Word)
    (r : Redirs) :
    ∃ r', extract_redirs_loop (w :: path :: ws) kept r = extract_redirs_loop ws kept r' := by
  rw [extract_redirs_loop]
  by_cases hlt : w = LT
  · rw [if_pos hlt]
    exact ⟨_, rfl⟩
  · rw [if_neg hlt, if_pos ((isOperator_iff.mp h).resolve_left hlt)]
    exact ⟨_, rfl⟩

theorem extract_redirs_loop_argument (h : ¬ isOperator w) (ws kept : List Word) (r : Redirs) :
    extract_redirs_loop (w :: ws) kept r = extract_redirs_loop ws (kept ++ [w]) r := by
  rw [isOperator_iff, not_or] at h
  cases ws <;> simp [extract_redirs_loop, h.1, h.2]

theorem extract_redirs_loop_last (h : isOperator w) (kept : List Word) (r : Redirs) :
    extract_redirs_loop [w] kept r = none := by
  rw [extract_redirs_loop]
  by_cases hlt : w = LT
  · rw [if_pos hlt]
  · rw [if_neg hlt, if_pos ((isOperator_iff.mp h).resolve_left hlt)]

/-- `roles` is what the loop does: it keeps the arguments, and fails if an
    operator comes last. -/
theorem extract_redirs_loop_roles (ws kept : List Word) (r : Redirs) :
    match extract_redirs_loop ws kept r with
    | none => (roles ws).getLast? = some .op
    | some (kept', _) => kept' = kept ++ arguments ws ∧ (roles ws).getLast? ≠ some .op := by
  induction ws using roles.induct generalizing kept r with
  | case1 => simp [extract_redirs_loop, arguments, roles]
  | case2 w hop => simp [extract_redirs_loop_last hop, roles, hop]
  | case3 w hop path ws ih =>
    obtain ⟨r', hstep⟩ := extract_redirs_loop_operator hop path ws kept r
    have hlast : (roles (w :: path :: ws)).getLast? = some .op ↔
        (roles ws).getLast? = some .op := by
      rw [roles_operator hop, List.getLast?_cons_cons, List.getLast?_cons]
      cases (roles ws).getLast? <;> simp
    rw [hstep, arguments_operator hop]
    simp only [hlast, ne_eq]
    exact ih kept r'
  | case4 w ws hop ih =>
    have hlast : (roles (w :: ws)).getLast? = some .op ↔ (roles ws).getLast? = some .op := by
      rw [roles_argument hop, List.getLast?_cons]
      cases (roles ws).getLast? <;> simp
    rw [extract_redirs_loop_argument hop, arguments_argument hop]
    simp only [hlast, ne_eq]
    have hrec := ih (kept ++ [w]) r
    rwa [List.append_assoc] at hrec

/-! ### Operators are told by their place -/

/-- The number of words that spell operators directly before the `k`-th word. -/
def operatorsBefore (ws : List Word) (k : ℕ) : ℕ :=
  ((ws.take k).reverse.takeWhile isOperator).length

theorem operatorsBefore_argument (h : ¬ isOperator w) (ws : List Word) (k : ℕ) :
    operatorsBefore (w :: ws) (k + 1) = operatorsBefore ws k := by
  rw [operatorsBefore, List.take_succ_cons, List.reverse_cons, List.takeWhile_append,
    List.takeWhile_cons_of_neg h, List.append_nil]
  split
  · next hall => rw [operatorsBefore, hall]
  · rfl

/-- An operator and its file count together, or not at all. -/
theorem operatorsBefore_operator (h : isOperator w) (path : Word) (ws : List Word) (k : ℕ) :
    Even (operatorsBefore (w :: path :: ws) (k + 2)) ↔ Even (operatorsBefore ws k) := by
  rw [operatorsBefore, List.take_succ_cons, List.take_succ_cons, List.reverse_cons,
    List.reverse_cons, List.append_assoc, List.takeWhile_append]
  split
  · next hall =>
    rw [operatorsBefore, hall, List.length_append]
    by_cases hpath : isOperator path
    · simp [hpath, h, Nat.even_add]
    · simp [hpath]
  · rfl

/-- A word that spells an operator is the file of the one before it, if that
    one is no file itself. -/
theorem roles_eq_op (ws : List Word) (k : ℕ) :
    (roles ws)[k]? = some .op ↔
      (∃ w, ws[k]? = some w ∧ isOperator w) ∧ Even (operatorsBefore ws k) := by
  induction ws using roles.induct generalizing k with
  | case1 => simp [roles]
  | case2 w hop =>
    cases k with
    | zero => simp [roles, hop, operatorsBefore]
    | succ k => simp [roles, hop]
  | case3 w hop path ws ih =>
    match k with
    | 0 => simp [roles, hop, operatorsBefore]
    | 1 =>
      have hone : operatorsBefore (w :: path :: ws) 1 = 1 := by simp [operatorsBefore, hop]
      rw [hone]
      simp [roles, hop]
    | k + 2 =>
      rw [operatorsBefore_operator hop, roles_operator hop, List.getElem?_cons_succ,
        List.getElem?_cons_succ, List.getElem?_cons_succ, List.getElem?_cons_succ]
      exact ih k
  | case4 w ws hop ih =>
    cases k with
    | zero => simp [roles_argument hop, hop]
    | succ k =>
      rw [operatorsBefore_argument hop, roles_argument hop, List.getElem?_cons_succ,
        List.getElem?_cons_succ]
      exact ih k

/-! ### What an argument vector loses -/

theorem length_arguments_le (ws : List Word) : (arguments ws).length ≤ ws.length := by
  rw [arguments, List.length_map]
  refine (List.length_filter_le ..).trans ?_
  rw [List.length_zip]
  exact min_le_left ..

/-- Without operators all words are arguments; with one, the operator is lost. -/
theorem arguments_eq_self : arguments ws = ws ↔ ∀ w ∈ ws, ¬ isOperator w := by
  induction ws with
  | nil => simp [arguments, roles]
  | cons w ws ih =>
    by_cases hop : isOperator w
    · refine iff_of_false (fun heq => ?_) fun hall => hall w List.mem_cons_self hop
      have hlength := congrArg List.length heq
      cases ws with
      | nil => simp [arguments, roles, hop] at heq
      | cons path ws =>
        have hle := length_arguments_le ws
        rw [arguments_operator hop] at hlength
        simp only [List.length_cons] at hlength
        omega
    · rw [arguments_argument hop, List.cons.injEq, ih]
      simp [hop]

theorem extract_redirs_eq (ws : List Word) :
    match extract_redirs ws with
    | none => (roles ws).getLast? = some .op
    | some (kept, _) => kept = arguments ws := by
  have hloop := extract_redirs_loop_roles ws [] {}
  rw [extract_redirs]
  cases h : extract_redirs_loop ws [] {} with
  | none => rwa [h] at hloop
  | some result =>
    rw [h] at hloop
    exact hloop.1

theorem extract_redirs_loop_self (h : ∀ w ∈ ws, ¬ isOperator w) (kept : List Word) (r : Redirs) :
    extract_redirs_loop ws kept r = some (kept ++ ws, r) := by
  induction ws generalizing kept with
  | nil => rw [extract_redirs_loop, List.append_nil]
  | cons w ws ih =>
    rw [extract_redirs_loop_argument (h w List.mem_cons_self),
      ih (fun v hv => h v (List.mem_cons_of_mem _ hv)), List.append_assoc]
    rfl

/-- An argument vector comes through as it is if and only if no word spells an operator. -/
theorem extract_redirs_self :
    extract_redirs ws = some (ws, {}) ↔ ∀ w ∈ ws, ¬ isOperator w := by
  constructor
  · intro h
    have heq := extract_redirs_eq ws
    rw [h] at heq
    exact arguments_eq_self.mp heq.symm
  · intro h
    exact extract_redirs_loop_self h [] {}

/-! ### Quotes -/

/-- One of `|`, `<` and `>` inside of quotes. -/
def Sym.isQuotedOperator (c : Sym) : Bool :=
  c.mark == .inner && (c.char == PIPE || c.char == 0x3c || c.char == 0x3e)

/-- No word with a quoted operator is taken for a redirection operator, in a line
    of which `extract_redirs` sees the words. -/
def Protected (s : List UInt8) : Prop :=
  inParent (lineWords s) = false → ∀ seg ∈ markedSegments s, ∀ (k : ℕ) (w : List Sym),
    (markedWords seg)[k]? = some w → (∃ c ∈ w, c.isQuotedOperator) →
      (roles ((markedWords seg).map text))[k]? ≠ some .op

/-- Every word with a quoted operator that spells an operator as a whole stands
    behind an odd number of words that spell operators. -/
def OperatorsAreFiles (s : List UInt8) : Prop :=
  ∀ seg ∈ markedSegments s, ∀ (k : ℕ) (w : List Sym), (markedWords seg)[k]? = some w →
    (∃ c ∈ w, c.isQuotedOperator) → isOperator (text w) →
      Odd (operatorsBefore ((markedWords seg).map text) k)

theorem protected_iff (s : List UInt8) :
    Protected s ↔ inParent (lineWords s) = true ∨ OperatorsAreFiles s := by
  have hrole : ∀ (words : List (List Sym)) (k : ℕ) (w : List Sym), words[k]? = some w →
      ((roles (words.map text))[k]? ≠ some .op ↔
        (isOperator (text w) → Odd (operatorsBefore (words.map text) k))) := by
    intro words k w hw
    rw [ne_eq, roles_eq_op, not_and, Nat.not_even_iff_odd]
    simp [hw]
  rw [Protected, ← Bool.not_eq_true, or_iff_not_imp_left]
  refine imp_congr_right fun _ => ?_
  constructor
  · intro h seg hseg k w hw hquoted
    exact (hrole _ k w hw).mp (h seg hseg k w hw hquoted)
  · intro h seg hseg k w hw hquoted
    exact (hrole _ k w hw).mpr (h seg hseg k w hw hquoted)

/-- The commands get their words, and no redirection, if they run in the parent
    or no word spells an operator. -/
theorem given_self {wss : List (List Word)} :
    given wss = wss.map (fun ws => some (ws, {})) ↔
      inParent wss = true ∨ ∀ ws ∈ wss, ∀ w ∈ ws, ¬ isOperator w := by
  unfold given
  split
  · next hparent => exact iff_of_true rfl (.inl hparent)
  · next hparent =>
    rw [List.map_inj_left, or_iff_right hparent]
    exact forall₂_congr fun ws _ => extract_redirs_self

variable {m : Mem} {p fuel : ℕ} {s : List UInt8}

/-- The words of a command of quoted words. -/
theorem LineText.lineWords {wss : List (List Word)} {t blank blank' : List UInt8}
    (h : LineText wss t) (hblank : Blank blank) (hblank' : Blank blank') :
    Myshell.lineWords (Myshell.trimmed (blank ++ (t ++ blank'))) = wss := by
  obtain ⟨⟨_, hfirst⟩, _, hlast⟩ := h.ends
  rw [trimmed_blank hblank hblank' hfirst hlast, lineWords_eq]
  exact h.segmentsOf .nil

/-- What `main` reads through its pointers are the words of the marked line. A
    quoted operator is safe unless its word spells a redirection operator and
    stands where one is looked for; commands of quoted words come through as
    they are if and only if no word spells a redirection operator. A builtin
    that runs in the parent is safe from redirections altogether. -/
theorem quoting_protects (h : StrAt m p s) (hfuel : s.length < fuel) :
    ∃ argvs m', parse_line fuel m p = some (argvs, m') ∧
      Shows m' argvs (lineWords (trimmed s)) ∧
      (Protected (trimmed s) ↔
        inParent (lineWords (trimmed s)) = true ∨ OperatorsAreFiles (trimmed s)) ∧
      ∀ wss t blank blank', LineText wss t → Blank blank → Blank blank' →
        s = blank ++ (t ++ blank') →
        ((Shows m' argvs wss ∧ given wss = wss.map fun ws => some (ws, {})) ↔
          inParent wss = true ∨ ∀ ws ∈ wss, ∀ w ∈ ws, ¬ isOperator w) := by
  obtain ⟨argvs, m', hparse, hshows⟩ := parse_line_spec h hfuel
  rw [← lineWords_eq] at hshows
  refine ⟨argvs, m', hparse, hshows, protected_iff _, ?_⟩
  intro wss t blank blank' hline hblank hblank' hs
  rw [hs, hline.lineWords hblank hblank'] at hshows
  rw [← given_self]
  exact and_iff_right hshows

/-- `echo 'a>b'`: the operator is part of a word. -/
def quotedPartLine : List UInt8 := [101, 99, 104, 111, 32, 39, 97, 62, 98, 39]

/-- `cd '>'`: nobody looks for operators. -/
def quotedBuiltinLine : List UInt8 := [99, 100, 32, 39, 62, 39]

theorem quoting_protects_part :
    (∃ argvs m', parse_line 16 (.holding quotedPartLine) 0 = some (argvs, m') ∧
      Shows m' argvs [[[101, 99, 104, 111], [97, 62, 98]]] ∧ Protected quotedPartLine) ∧
    ∃ argvs m', parse_line 16 (.holding quotedBuiltinLine) 0 = some (argvs, m') ∧
      Shows m' argvs [[CD, GT]] ∧ Protected quotedBuiltinLine := by
  constructor
  · have hline : StrAt (.holding quotedPartLine) 0 quotedPartLine :=
      ⟨by simp [BytesAt, Mem.holding, quotedPartLine], by decide, rfl⟩
    obtain ⟨argvs, m', hparse, hshows, hiff, -⟩ := quoting_protects hline (show _ < 16 by decide)
    refine ⟨argvs, m', hparse, hshows, hiff.mpr (.inr ?_)⟩
    intro seg hseg k w hw _ hop
    -- no word of the line spells an operator
    have hnone : ∀ seg ∈ markedSegments quotedPartLine, ∀ w ∈ markedWords seg,
        ¬ isOperator (text w) := by
      decide
    exact absurd hop (hnone seg hseg w (List.mem_of_getElem? hw))
  · have hline : StrAt (.holding quotedBuiltinLine) 0 quotedBuiltinLine :=
      ⟨by simp [BytesAt, Mem.holding, quotedBuiltinLine], by decide, rfl⟩
    obtain ⟨argvs, m', hparse, hshows, hiff, -⟩ := quoting_protects hline (show _ < 16 by decide)
    exact ⟨argvs, m', hparse, hshows, hiff.mpr (.inl (by decide))⟩

/-- `echo '>' f` -/
def quotedOperatorLine : List UInt8 := [101, 99, 104, 111, 32, 39, 62, 39, 32, 102]

theorem quoted_operator_redirects :
    (∃ argvs m', parse_line 16 (.holding quotedOperatorLine) 0 = some (argvs, m') ∧
      Shows m' argvs [[[101, 99, 104, 111], GT, [102]]]) ∧
    given [[[101, 99, 104, 111], GT, [102]]] =
      [some ([[101, 99, 104, 111]], { out_path := some [102] })] ∧
    ¬ Protected quotedOperatorLine := by
  refine ⟨?_, by decide, fun h => ?_⟩
  · have hline : StrAt (.holding quotedOperatorLine) 0 quotedOperatorLine :=
      ⟨by simp [BytesAt, Mem.holding, quotedOperatorLine], by decide, rfl⟩
    obtain ⟨argvs, m', hparse, hshows⟩ := parse_line_spec hline (show _ < 16 by decide)
    rw [← lineWords_eq] at hshows
    exact ⟨argvs, m', hparse, hshows⟩
  · have hmem : marked .out quotedOperatorLine ∈ markedSegments quotedOperatorLine := by decide
    have hrole := h (by decide) _ hmem 1 [⟨39, .quote⟩, ⟨62, .inner⟩, ⟨39, .quote⟩] (by decide)
      (by decide)
    exact hrole (by decide)

end Myshell
