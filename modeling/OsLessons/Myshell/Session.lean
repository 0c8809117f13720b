import OsLessons.Lib.Processes
import OsLessons.Myshell.Bounds
import OsLessons.Myshell.Builtins

/-! # myshell: a session

  `main`: the prompt, `getline` into a buffer that lives from line to line and
  may move, the line taken to pieces in that buffer, and `run_pipeline` on the
  pointers into it. The standard output of the shell is a stream with a buffer,
  which a child copies when it is forked.

  - `session`: the same commands from the lines as lists, without a memory and
    without a stream buffer.
  - `main_loop_eq`: `main` is this session, wherever the buffer lies and
    whatever else is in it: nothing of an earlier line shows in a later one.
  - `session_keeps`: after any number of lines the shell has its descriptors,
    and has waited for all of its children.
  - `child_pwd_written`: what a child prints gets out on a terminal only.

  Allocations succeed. A line whose words fill an array is undefined behaviour.
-/

namespace Myshell

open Posix CString Processes

def NEWLINE : UInt8 := 0x0a

/-- `"myshell$ "` -/
def PROMPT : Word := [0x6d, 0x79, 0x73, 0x68, 0x65, 0x6c, 0x6c, 0x24, 0x20]

/-- What the calls of a session return; `κ` are the directories. -/
structure World (κ : Type) where
  /-- where `getline` puts line `n`, and what is in the memory then -/
  heap : ℕ → Mem → ℕ × Mem
  /-- the calls of the pipeline of line `n` -/
  env : ℕ → κ → Env
  home : Option Word
  chdir : κ → Word → Option κ
  getcwd : κ → Option Word
  /-- `isatty(STDOUT_FILENO)` -/
  tty : Bool

inductive Event (α κ : Type) where
  | wrote (t : Word)
  /-- a pipeline, the directory, and what was in the buffer of the stream -/
  | ran (cwd : κ) (buf : List Word) (argvs : List (List Word)) (o : Outcome α)
  | cdFailed (path : Word)
  | pwdFailed

/-- The shell between two calls. -/
structure Shell (α κ : Type) where
  fds : Table α
  cwd : κ
  /-- printed, not yet written -/
  buf : List Word
  log : List (Event α κ)

section
variable {α κ : Type} (w : World κ)

/-! ### Standard output -/

/-- `setvbuf(stdout, NULL, _IOLBF, 0)` on a terminal. -/
def World.atOnce (t : Word) : Bool := w.tty && t.getLast? = some NEWLINE

def Shell.print (sh : Shell α κ) (t : Word) : Shell α κ :=
  let r := put w.atOnce sh.buf t
  { sh with buf := r.1, log := sh.log ++ r.2.map .wrote }

/-- `fflush(stdout)` -/
def Shell.flush (sh : Shell α κ) : Shell α κ :=
  { sh with buf := [], log := sh.log ++ sh.buf.map .wrote }

/-! ### A line -/

/-- `run_pipeline`, and the code if the shell exits. -/
def run_line (print : Shell α κ → Word → Shell α κ) (n : ℕ) (sh : Shell α κ)
    (argvs : List (List Word)) : Shell α κ × Option ℤ :=
  if argvs = [] then (sh, none)
  else
    match (parent_builtin w.home argvs sh.fds).map BuiltinRun.effect with
    | some (.exit code) => (sh, some code)
    | some (.cd path) =>
        match w.chdir sh.cwd path with
        | some cwd => ({ sh with cwd := cwd }, none)
        | none => ({ sh with log := sh.log ++ [.cdFailed path] }, none)
    | some .pwd =>
        match w.getcwd sh.cwd with
        | some dir => (print sh (dir ++ [NEWLINE]), none)
        | none => ({ sh with log := sh.log ++ [.pwdFailed] }, none)
    | none =>
        let o := run_pipeline (w.env n sh.cwd) argvs sh.fds
        ({ sh with fds := o.fds, log := sh.log ++ [.ran sh.cwd sh.buf argvs o] }, none)

/-- `getline`, and the newline at the end overwritten. -/
def read_line (n : ℕ) (m : Mem) (raw : List UInt8) : ℕ × Mem :=
  let line := (w.heap n m).1
  let m := (w.heap n m).2.write line (raw ++ [0])
  (line, if raw ≠ [] ∧ m (line + raw.length - 1) = NEWLINE then m.set (line + raw.length - 1) 0
    else m)

/-- The strings that the argument vectors point to. -/
def words_at (fuel : ℕ) (m : Mem) (argvs : List PtrArray) : Option (List (List Word)) :=
  argvs.mapM fun argv => argv.ptrs.mapM (read_str fuel m)

instance (arr : PtrArray) : Decidable arr.InBounds :=
  inferInstanceAs (Decidable (∀ st ∈ arr.stores, st.1 < st.2))

/-- The loop of `main`, before line `n`, with what `getline` is going to read;
    `none` if the behaviour is undefined. -/
def main_loop : ℕ → List (List UInt8) → Mem → Shell α κ → Option (Shell α κ × ℤ)
  -- end of file
  | _, [], _, sh => some (((sh.print w PROMPT).flush.print w [NEWLINE]).flush, 0)
  | n, raw :: rest, m, sh => do
      let sh := (sh.print w PROMPT).flush
      let (line, m) := read_line w n m raw
      let (argvs, m) ← parse_line (raw.length + 1) m line
      if ∃ argv ∈ argvs, ¬ argv.InBounds then none
      else
        let words ← words_at (raw.length + 1) m argvs
        match run_line w (fun sh t => sh.print w t) n sh words with
        | (sh, some code) => return (sh.flush, code)
        | (sh, none) => main_loop (n + 1) rest m sh

/-! ### Without a memory -/

/-- What is before the newline and before the first zero. -/
def lineText (raw : List UInt8) : List UInt8 :=
  (if raw.getLast? = some NEWLINE then raw.dropLast else raw).takeWhile (· ≠ 0)

/-- The commands of a line. -/
def commands (raw : List UInt8) : List (List Word) := lineWords (trimmed (lineText raw))

/-- There is no room for the `NULL` behind the words. -/
def fillsArray (words : List Word) : Bool :=
  (List.range words.length).any fun k => words.length = 8 * 2 ^ k

/-- A text is written as soon as it is printed. -/
def Shell.write (sh : Shell α κ) (t : Word) : Shell α κ :=
  { sh with log := sh.log ++ [.wrote t] }

/-- The lines of a session, from number `n` on. -/
def session : ℕ → List (List UInt8) → Shell α κ → Option (Shell α κ × ℤ)
  | _, [], sh => some ((sh.write PROMPT).write [NEWLINE], 0)
  | n, raw :: rest, sh =>
      if (commands raw).any fillsArray then none
      else
        match run_line w Shell.write n (sh.write PROMPT) (commands raw) with
        | (sh, some code) => some (sh, code)
        | (sh, none) => session (n + 1) rest sh

end

/-! ### Lines in memory -/

variable {α κ : Type} {w : World κ}

/-- `getline` leaves a string, whatever was in the memory. -/
theorem read_line_spec (w : World κ) (n : ℕ) (m : Mem) (raw : List UInt8) :
    StrAt (read_line w n m raw).2 (read_line w n m raw).1 (lineText raw) := by
  unfold read_line lineText
  generalize (w.heap n m).1 = p
  generalize (w.heap n m).2 = m₀
  have hbytes : ∀ (i : ℕ) (hi : i < raw.length), m₀.write p (raw ++ [0]) (p + i) = raw[i] := by
    intro i hi
    rw [Mem.write_getElem (by simp; omega), List.getElem_append_left hi]
  have hnul : m₀.write p (raw ++ [0]) (p + raw.length) = 0 := by
    rw [Mem.write_getElem (by simp)]
    simp
  simp only
  generalize m₀.write p (raw ++ [0]) = m₁ at hbytes hnul ⊢
  cases raw using List.reverseRecOn with
  | nil =>
    rw [if_neg (by simp), if_neg (by simp)]
    exact strAt_of_bytes hbytes hnul
  | append_singleton r c =>
    have hlast : m₁ (p + (r ++ [c]).length - 1) = c := by
      have hc := hbytes r.length (by simp)
      rw [List.getElem_concat_length rfl] at hc
      rw [← hc, List.length_append, List.length_singleton]
      rfl
    have hiff : (r ++ [c] ≠ [] ∧ m₁ (p + (r ++ [c]).length - 1) = NEWLINE) ↔ c = NEWLINE := by
      rw [hlast]
      simp
    by_cases hc : c = NEWLINE
    · rw [if_pos (hiff.mpr hc), if_pos (by simp [hc]), List.dropLast_concat]
      have hpos : p + (r ++ [c]).length - 1 = p + r.length := by
        rw [List.length_append, List.length_singleton]
        rfl
      rw [hpos]
      apply strAt_of_bytes
      · intro i hi
        rw [Mem.set_ne _ _ (by omega), hbytes i (by simp; omega), List.getElem_append_left hi]
      · exact Mem.set_self ..
    · rw [if_neg (fun hand => hc (hiff.mp hand)), if_neg (by simpa using hc)]
      exact strAt_of_bytes hbytes hnul

/-! ### Words through pointers -/

theorem wordOf_sublist (q : Quotes) (s : List UInt8) :
    (wordOf q s).1.Sublist s ∧ (wordOf q s).2.Sublist s := by
  induction s generalizing q with
  | nil => exact ⟨.slnil, .slnil⟩
  | cons c s ih =>
    simp only [wordOf]
    split
    · next q' _ => exact ⟨(ih q').1.cons c, (ih q').2.cons c⟩
    · split
      · exact ⟨List.nil_sublist _, List.sublist_cons_self c s⟩
      · exact ⟨(ih q).1.cons_cons c, (ih q).2.cons c⟩

theorem wordsOf_sublist (s : List UInt8) : ∀ word ∈ wordsOf s, word.Sublist s := by
  induction hn : s.length using Nat.strong_induction_on generalizing s with
  | _ n ih =>
    have hsub := List.dropWhile_sublist isspace (l := s)
    cases hdrop : s.dropWhile isspace with
    | nil =>
      rw [wordsOf_of_nil hdrop]
      simp
    | cons c t =>
      rw [wordsOf_of_cons hdrop]
      rw [hdrop] at hsub
      have hlt := length_wordOf_lt .out c t
      have hle := hsub.length_le
      rw [List.length_cons] at hle
      intro word hmem
      rcases List.mem_cons.mp hmem with rfl | hmem
      · exact (wordOf_sublist .out (c :: t)).1.trans hsub
      · have hrest := ih _ (by omega) (wordOf .out (c :: t)).2 rfl word hmem
        exact (hrest.trans (wordOf_sublist .out (c :: t)).2).trans hsub

theorem trimmed_sublist (s : List UInt8) : (trimmed s).Sublist s :=
  (List.rdropWhile_prefix isspace _).sublist.trans (List.dropWhile_sublist isspace)

theorem pieces_sublist (delim : UInt8) (s : List UInt8) : ∀ a ∈ pieces delim s, a.Sublist s := by
  induction hn : s.length using Nat.strong_induction_on generalizing s with
  | _ n ih =>
    cases hcut : (cutAt delim .out s).2 with
    | none =>
      rw [pieces_of_none hcut]
      simp
    | some r =>
      rw [pieces_of_some hcut]
      have hlen := length_of_cutAt hcut
      have heq := cutAt_eq delim .out s
      rw [hcut] at heq
      intro a hmem
      rcases List.mem_cons.mp hmem with rfl | hmem
      · conv_rhs => rw [heq]
        exact List.sublist_append_left _ _
      · have hrest := ih r.length (by omega) r rfl a hmem
        apply hrest.trans
        conv_rhs => rw [heq]
        exact (List.sublist_cons_self delim r).trans (List.sublist_append_right _ _)

/-- The words of a line are no longer than the line. -/
theorem length_command_le {s : List UInt8} {words : List Word} {word : Word}
    (hwords : words ∈ lineWords s) (hword : word ∈ words) : word.length ≤ s.length := by
  rw [lineWords_eq] at hwords
  obtain ⟨seg, hseg, rfl⟩ := List.mem_map.mp hwords
  obtain ⟨hseg, -⟩ := List.mem_filter.mp hseg
  obtain ⟨a, ha, rfl⟩ := List.mem_map.mp hseg
  have hsub := (wordsOf_sublist _ word hword).trans
    ((trimmed_sublist a).trans (pieces_sublist PIPE s a ha))
  exact hsub.length_le

/-- Reading through pointers to strings. -/
theorem mapM_read_str {fuel : ℕ} {m : Mem} {ptrs : List ℕ} {words : List Word}
    (h : List.Forall₂ (StrAt m) ptrs words) (hfuel : ∀ word ∈ words, word.length < fuel) :
    ptrs.mapM (read_str fuel m) = some words := by
  induction h with
  | nil => rfl
  | @cons p word ptrs words hp _ ih =>
    have hrest := ih fun word hmem => hfuel word (List.mem_cons_of_mem _ hmem)
    rw [List.mapM_cons, read_str_eq hp (hfuel word List.mem_cons_self), hrest]
    rfl

theorem words_at_eq {fuel : ℕ} {m : Mem} {argvs : List PtrArray} {lines : List (List Word)}
    (h : Shows m argvs lines) (hfuel : ∀ words ∈ lines, ∀ word ∈ words, word.length < fuel) :
    words_at fuel m argvs = some lines := by
  unfold words_at
  induction h with
  | nil => rfl
  | @cons argv words argvs lines hargv _ ih =>
    have hrest := ih fun words hmem => hfuel words (List.mem_cons_of_mem _ hmem)
    rw [List.mapM_cons, mapM_read_str hargv (hfuel words List.mem_cons_self), hrest]
    rfl

/-! ### Arrays of pointers -/

/-- Every array is one that words were added to, with the `NULL` behind them. -/
theorem parse_segments_grown {fuel : ℕ} {m m' : Mem} {ps : List ℕ} {argvs : List PtrArray}
    (h : parse_segments fuel m ps = some (argvs, m')) :
    ∀ argv ∈ argvs, ∃ (arr : PtrArray) (k : ℕ), argv = arr.terminate ∧ arr.Grown k := by
  induction ps generalizing m argvs with
  | nil =>
    cases h
    simp
  | cons p ps ih =>
    simp only [parse_segments, Option.bind_eq_bind, Option.pure_def] at h
    obtain ⟨⟨argv, m₁⟩, hargv, h⟩ := Option.bind_eq_some_iff.mp h
    obtain ⟨⟨argvs', m₂⟩, hargvs, h⟩ := Option.bind_eq_some_iff.mp h
    cases h
    intro a hmem
    rcases List.mem_cons.mp hmem with rfl | hmem
    · exact parse_argv_from_grown grown_alloc hargv
    · exact ih hargvs a hmem

theorem parse_line_grown {fuel : ℕ} {m m' : Mem} {line : ℕ} {argvs : List PtrArray}
    (h : parse_line fuel m line = some (argvs, m')) :
    ∀ argv ∈ argvs, ∃ (arr : PtrArray) (k : ℕ), argv = arr.terminate ∧ arr.Grown k := by
  simp only [parse_line, Option.bind_eq_bind, Option.pure_def] at h
  obtain ⟨⟨ln, m₁⟩, -, h⟩ := Option.bind_eq_some_iff.mp h
  split at h
  · cases h
    simp
  · obtain ⟨⟨segments, m₂⟩, -, h⟩ := Option.bind_eq_some_iff.mp h
    exact parse_segments_grown h

theorem fillsArray_iff (words : List Word) :
    fillsArray words = true ↔ ∃ k, words.length = 8 * 2 ^ k := by
  simp only [fillsArray, List.any_eq_true, List.mem_range, decide_eq_true_eq]
  constructor
  · intro h
    obtain ⟨k, -, hk⟩ := h
    exact ⟨k, hk⟩
  · intro h
    obtain ⟨k, hk⟩ := h
    have hlt : k < 2 ^ k := Nat.lt_two_pow_self
    exact ⟨k, by omega, hk⟩

theorem Shows.inBounds {m : Mem} {argvs : List PtrArray} {lines : List (List Word)}
    (h : Shows m argvs lines)
    (hgrown : ∀ argv ∈ argvs, ∃ (arr : PtrArray) (k : ℕ), argv = arr.terminate ∧ arr.Grown k) :
    (∃ argv ∈ argvs, ¬ argv.InBounds) ↔ lines.any fillsArray = true := by
  induction h with
  | nil => simp
  | @cons argv words argvs lines hargv _ ih =>
    have hrest := ih fun a hmem => hgrown a (List.mem_cons_of_mem _ hmem)
    obtain ⟨arr, k, rfl, hk⟩ := hgrown argv List.mem_cons_self
    have hlength : arr.ptrs.length = words.length := hargv.length_eq
    have hhead : ¬ arr.terminate.InBounds ↔ fillsArray words = true := by
      rw [hk.terminate_inBounds, hlength, fillsArray_iff]
      simp
    rw [List.any_cons, Bool.or_eq_true, ← hhead, ← hrest]
    simp

/-- **A line**: the arrays are in order unless a command fills one, and then
    the pointers lead to the commands of the line. -/
theorem parse_commands (w : World κ) (n : ℕ) (m : Mem) (raw : List UInt8) :
    ∃ argvs m', parse_line (raw.length + 1) (read_line w n m raw).2 (read_line w n m raw).1 =
        some (argvs, m') ∧
      ((∃ argv ∈ argvs, ¬ argv.InBounds) ↔ (commands raw).any fillsArray = true) ∧
      words_at (raw.length + 1) m' argvs = some (commands raw) := by
  have hstr := read_line_spec w n m raw
  have hlength : (lineText raw).length ≤ raw.length := by
    unfold lineText
    have hle := (List.takeWhile_prefix (l := if raw.getLast? = some NEWLINE then raw.dropLast
      else raw) (· ≠ (0 : UInt8))).length_le
    have hdrop : (if raw.getLast? = some NEWLINE then raw.dropLast else raw).length ≤ raw.length := by
      split
      · rw [List.length_dropLast]
        exact Nat.sub_le _ _
      · exact le_rfl
    omega
  obtain ⟨argvs, m', hparse, hshows⟩ := parse_line_spec hstr (show _ < raw.length + 1 by omega)
  rw [← lineWords_eq] at hshows
  refine ⟨argvs, m', hparse, hshows.inBounds (parse_line_grown hparse), ?_⟩
  apply words_at_eq hshows
  intro words hwords word hword
  have hword := length_command_le hwords hword
  have htrim := (trimmed_sublist (lineText raw)).length_le
  omega

/-! ### The stream buffer -/

@[simp] theorem Shell.flush_print (sh : Shell α κ) (t : Word) :
    (sh.print w t).flush = sh.flush.write t := by
  unfold Shell.print Shell.flush Shell.write put
  split
  · simp
  · simp

theorem Shell.flush_of_nil {sh : Shell α κ} (h : sh.buf = []) : sh.flush = sh := by
  obtain ⟨fds, cwd, buf, log⟩ := sh
  change buf = [] at h
  subst h
  simp [flush]

theorem Shell.flush_pair {sh : Shell α κ} (code : Option ℤ) (h : sh.buf = []) :
    (sh, code) = (sh.flush, code) := by
  rw [flush_of_nil h]

/-- With nothing in the buffer a command does the same, up to what it leaves in
    the buffer. -/
theorem run_line_flush (n : ℕ) {sh : Shell α κ} (h : sh.buf = []) (argvs : List (List Word)) :
    run_line w Shell.write n sh argvs =
      ((run_line w (fun sh t => sh.print w t) n sh argvs).1.flush,
        (run_line w (fun sh t => sh.print w t) n sh argvs).2) := by
  have hflush := sh.flush_of_nil h
  unfold run_line
  split
  · rw [hflush]
  · cases (parent_builtin w.home argvs sh.fds).map BuiltinRun.effect with
    | none =>
      simp only
      exact Shell.flush_pair none h
    | some e =>
      cases e with
      | exit code => rw [hflush]
      | cd path =>
        cases hcd : w.chdir sh.cwd path with
        | some cwd =>
          simp only [hcd]
          exact Shell.flush_pair none h
        | none =>
          simp only [hcd]
          exact Shell.flush_pair none h
      | pwd =>
        cases hdir : w.getcwd sh.cwd with
        | some dir => simp only [Shell.flush_print, hflush]
        | none =>
          simp only
          exact Shell.flush_pair none h

/-- **Refinement**: `main` runs the commands of the lines as lists, whatever
    the addresses of its buffer, whatever is in it from earlier lines, and
    whether standard output is a terminal or not. -/
theorem main_loop_eq (w : World κ) (n : ℕ) (lines : List (List UInt8)) (m : Mem)
    (sh : Shell α κ) : main_loop w n lines m sh = session w n lines sh.flush := by
  induction lines generalizing n m sh with
  | nil =>
    show some ((((sh.print w PROMPT).flush.print w [NEWLINE]).flush, (0 : ℤ))) = _
    have hflushed : (sh.flush.write PROMPT).flush = sh.flush.write PROMPT :=
      Shell.flush_of_nil rfl
    rw [Shell.flush_print, Shell.flush_print, hflushed]
    rfl
  | cons raw rest ih =>
    obtain ⟨argvs, m', hparse, hbounds, hwords⟩ := parse_commands w n m raw
    simp only [main_loop, session, Option.bind_eq_bind, hparse, Option.bind_some, hbounds, hwords,
      Shell.flush_print]
    split
    · rfl
    · have hbuf : (sh.flush.write PROMPT).buf = [] := rfl
      rw [run_line_flush n hbuf]
      generalize run_line w (fun sh t => sh.print w t) n (sh.flush.write PROMPT) (commands raw) = r
      obtain ⟨sh', code⟩ := r
      cases code with
      | some code => rfl
      | none => exact ih (n + 1) m' sh'

/-! ### Whole sessions -/

/-- A pipeline of a session whose shell has the descriptors `t`: it starts with
    these and with an empty stream buffer, and leaves nothing behind. -/
def CleanRun (w : World κ) (t : Table α) : Event α κ → Prop
  | .ran cwd buf argvs o => buf = [] ∧ (∃ n, o = run_pipeline (w.env n cwd) argvs t) ∧
      o.fds = t ∧ o.waited = o.children.map Child.pid
  | _ => True

/-- The shell between two lines. -/
structure Clean (w : World κ) (t : Table α) (sh : Shell α κ) : Prop where
  fds : sh.fds = t
  buf : sh.buf = []
  log : ∀ e ∈ sh.log, CleanRun w t e

variable {t : Table α} {sh sh' : Shell α κ}

theorem Clean.event (h : Clean w t sh) {e : Event α κ} (he : CleanRun w t e) :
    Clean w t ⟨sh.fds, sh.cwd, sh.buf, sh.log ++ [e]⟩ where
  fds := h.fds
  buf := h.buf
  log e' hmem := by
    rcases List.mem_append.mp hmem with hmem | hmem
    · exact h.log e' hmem
    · rw [List.mem_singleton.mp hmem]
      exact he

theorem Clean.write (h : Clean w t sh) (text : Word) : Clean w t (sh.write text) :=
  h.event (e := .wrote text) trivial

theorem Clean.run_line (h : Clean w t sh) (n : ℕ) (argvs : List (List Word)) :
    Clean w t (run_line w Shell.write n sh argvs).1 := by
  unfold Myshell.run_line
  split
  · exact h
  · cases (parent_builtin w.home argvs sh.fds).map BuiltinRun.effect with
    | none =>
      simp only
      obtain ⟨pipes, t', hopened, hfds, hwaited, -⟩ :=
        run_pipeline_spec (w.env n sh.cwd) argvs sh.fds
      have hback : (run_pipeline (w.env n sh.cwd) argvs sh.fds).fds = sh.fds :=
        hfds.trans hopened.close
      have hclean : CleanRun w t
          (.ran sh.cwd sh.buf argvs (run_pipeline (w.env n sh.cwd) argvs sh.fds)) :=
        ⟨h.buf, ⟨n, by rw [h.fds]⟩, hback.trans h.fds, hwaited⟩
      have hevent := h.event hclean
      rw [hback]
      exact hevent
    | some e =>
      cases e with
      | exit code => exact h
      | cd path =>
        cases hcd : w.chdir sh.cwd path with
        | some cwd =>
          simp only [hcd]
          exact ⟨h.fds, h.buf, h.log⟩
        | none =>
          simp only [hcd]
          exact h.event (e := .cdFailed path) trivial
      | pwd =>
        cases w.getcwd sh.cwd with
        | some dir => exact h.write _
        | none => exact h.event (e := .pwdFailed) trivial

theorem Clean.session {code : ℤ} {n : ℕ} {lines : List (List UInt8)} (h : Clean w t sh)
    (hrun : session w n lines sh = some (sh', code)) : Clean w t sh' := by
  induction lines generalizing n sh with
  | nil =>
    cases hrun
    exact (h.write PROMPT).write [NEWLINE]
  | cons raw rest ih =>
    have hline := (h.write PROMPT).run_line n (commands raw)
    simp only [Myshell.session] at hrun
    split at hrun
    · cases hrun
    · split at hrun
      · next sh₁ code₁ heq =>
        cases hrun
        rw [heq] at hline
        exact hline
      · next sh₁ heq =>
        rw [heq] at hline
        exact ih hline hrun

/-- A shell that has just been started. -/
def started (shell : FdTable α) (cwd : κ) : Shell α κ := ⟨shell.map .inherited, cwd, [], []⟩

theorem clean_started (w : World κ) (shell : FdTable α) (cwd : κ) :
    Clean w (shell.map .inherited) (started shell cwd) where
  fds := rfl
  buf := rfl
  log := by simp [started]

/-- **No leaks**: over a whole session, wherever a call fails, every pipeline
    starts with the descriptors that the shell was started with and with
    nothing in the stream buffer, and ends with all of its children waited for;
    at the end the shell has these descriptors and has written everything. -/
theorem session_keeps {lines : List (List UInt8)} {m : Mem} {shell : FdTable α} {cwd : κ} {code : ℤ}
    (h : main_loop w 0 lines m (started shell cwd) = some (sh', code)) :
    sh'.fds = shell.map .inherited ∧ sh'.buf = [] ∧
      ∀ e ∈ sh'.log, CleanRun w (shell.map .inherited) e := by
  rw [main_loop_eq] at h
  obtain ⟨hfds, hbuf, hlog⟩ := (clean_started w shell cwd).session h
  exact ⟨hfds, hbuf, hlog⟩

/-- A shell in the root directory, not on a terminal. -/
def plain : World Unit where
  heap _ m := (0, m)
  env _ _ := calm
  home := none
  chdir _ _ := none
  getcwd _ := some [SLASH]
  tty := false

/-- `pwd | x` -/
def pwdLine : List UInt8 := [0x70, 0x77, 0x64, 0x20, 0x7c, 0x20, 0x78, 0x0a]

theorem session_keeps_pwd : ∃ sh' code,
    main_loop plain 0 [pwdLine, pwdLine] (fun _ => 7) (started terminal ()) = some (sh', code) ∧
      sh'.fds = terminal.map .inherited := by
  have hsome : (main_loop plain 0 [pwdLine, pwdLine] (fun _ => 7) (started terminal ())).isSome := by
    rw [main_loop_eq]
    rfl
  obtain ⟨⟨sh', code⟩, hrun⟩ := Option.isSome_iff_exists.mp hsome
  exact ⟨sh', code, hrun, (session_keeps hrun).1⟩

/-! ### What children print -/

/-- What `pwd` writes in a child, and where: `puts`, and then `_exit`, which
    does not write the buffer. -/
def child_pwd (w : World κ) (cwd : κ) (buf : List Word) (c : Child α) :
    Option (Option (Desc α) × List Word) := do
  let setup ← c.setup.toOption
  let run ← child_builtin w.home setup
  let dir ← w.getcwd cwd
  if run.effect = .pwd then return (run.stdout, (put w.atOnce buf (dir ++ [NEWLINE])).2) else none

/-- Over a whole session, a `pwd` that runs in a child writes its line, and
    nothing else, if the shell was started on a terminal, and otherwise
    nothing: the line is lost in the buffer. -/
theorem child_pwd_written {lines : List (List UInt8)} {m : Mem} {shell : FdTable α} {cwd cwd' : κ}
    {code : ℤ} {buf : List Word} {argvs : List (List Word)} {o : Outcome α} {c : Child α}
    {stdout : Option (Desc α)} {texts : List Word}
    (h : main_loop w 0 lines m (started shell cwd) = some (sh', code))
    (hran : .ran cwd' buf argvs o ∈ sh'.log)
    (hpwd : child_pwd w cwd' buf c = some (stdout, texts)) :
    ∃ dir, w.getcwd cwd' = some dir ∧ texts = if w.tty then [dir ++ [NEWLINE]] else [] := by
  rw [main_loop_eq] at h
  obtain ⟨hbuf, -⟩ := ((clean_started w shell cwd).session h).log _ hran
  subst hbuf
  simp only [child_pwd, Option.bind_eq_bind, Option.bind_eq_some_iff] at hpwd
  obtain ⟨setup, -, run, -, dir, hdir, hwritten⟩ := hpwd
  refine ⟨dir, hdir, ?_⟩
  split at hwritten
  · cases hwritten
    have honce : w.atOnce (dir ++ [NEWLINE]) = w.tty := by simp [World.atOnce]
    rw [put, honce]
    split <;> rfl
  · cases hwritten

/-- `pwd | x` as the shell runs it. -/
def pwdOutcome : Outcome Unit := run_pipeline calm (commands pwdLine) (terminal.map .inherited)

/-- The `pwd` of `pwd | x` writes nothing into the pipe. -/
theorem child_pwd_written_pipe : ∃ sh' code c texts,
    main_loop plain 0 [pwdLine] (fun _ => 7) (started terminal ()) = some (sh', code) ∧
      .ran () [] (commands pwdLine) pwdOutcome ∈ sh'.log ∧ c ∈ pwdOutcome.children ∧
      child_pwd plain () [] c = some (some (.writeEnd 0), texts) ∧ texts = [] := by
  have hrun : main_loop plain 0 [pwdLine] (fun _ => 7) (started terminal ()) =
      some (⟨pwdOutcome.fds, (), [], [.wrote PROMPT, .ran () [] (commands pwdLine) pwdOutcome,
        .wrote PROMPT, .wrote [NEWLINE]]⟩, 0) := by
    rw [main_loop_eq]
    rfl
  have hchild : (pwdOutcome.children[0]?.bind (child_pwd plain () [])).any
      (fun r => r.1.any fun d => match d with | .writeEnd 0 => true | _ => false) = true := by
    decide +kernel
  obtain ⟨⟨stdout, texts⟩, hbind, hout⟩ := (Option.any_eq_true _ _).mp hchild
  obtain ⟨c, hc, hpwd⟩ := Option.bind_eq_some_iff.mp hbind
  obtain ⟨d, hd, hend⟩ := (Option.any_eq_true _ _).mp hout
  have hran : Event.ran () [] (commands pwdLine) pwdOutcome ∈
      [Event.wrote PROMPT, .ran () [] (commands pwdLine) pwdOutcome, .wrote PROMPT,
        .wrote [NEWLINE]] := List.mem_cons_of_mem _ List.mem_cons_self
  obtain ⟨dir, -, htexts⟩ := child_pwd_written hrun hran hpwd
  change stdout = some d at hd
  subst hd
  split at hend
  · exact ⟨_, 0, c, texts, hrun, hran, List.mem_of_getElem? hc, hpwd, htexts⟩
  · cases hend

end Myshell
