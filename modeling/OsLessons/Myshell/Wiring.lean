import OsLessons.Myshell.Pipeline

/-! # myshell: wiring and clean-up of a pipeline

  - `Opened`: the descriptors of the shell while the pipes are open.
  - `child_setup_ok`: standard input and output of a child at its command.
  - `pipeline_wiring`: every child of `run_pipeline`, and what the shell is
    left with.
-/

namespace Myshell

open Posix

variable {α : Type}

/-! ### Pipes in the shell -/

/-- The descriptors of the pipes. -/
def ends (pipes : List Pipe) : List ℕ := pipes.flatMap fun p => [p.1, p.2]

@[simp] theorem ends_nil : ends [] = [] := rfl
@[simp] theorem ends_cons (p : Pipe) (pipes : List Pipe) :
    ends (p :: pipes) = p.1 :: p.2 :: ends pipes := rfl
theorem ends_append (pipes pipes' : List Pipe) :
    ends (pipes ++ pipes') = ends pipes ++ ends pipes' := List.flatMap_append ..

theorem mem_ends {pipes : List Pipe} {k : ℕ} {p : Pipe} (h : pipes[k]? = some p) :
    p.1 ∈ ends pipes ∧ p.2 ∈ ends pipes := by
  have hmem := List.mem_of_getElem? h
  constructor
  · exact List.mem_flatMap.mpr ⟨p, hmem, by simp⟩
  · exact List.mem_flatMap.mpr ⟨p, hmem, by simp⟩

/-- `close_pipes` closes the ends and nothing else. -/
theorem close_pipes_slot (pipes : List Pipe) (t : Table α) (fd : ℕ) :
    (close_pipes pipes t).slot fd = if fd ∈ ends pipes then none else t.slot fd := by
  induction pipes generalizing t with
  | nil => simp [close_pipes]
  | cons p pipes ih =>
    change (close_pipes pipes ((t.close p.1).close p.2)).slot fd = _
    rw [ih]
    by_cases hmem : fd ∈ ends pipes
    · simp [hmem]
    · rcases eq_or_ne fd p.2 with rfl | h₂
      · simp
      · rcases eq_or_ne fd p.1 with rfl | h₁
        · simp [Function.update_of_ne h₂]
        · simp [hmem, h₁, h₂]

theorem close_pipes_limit (pipes : List Pipe) (t : Table α) :
    (close_pipes pipes t).limit = t.limit := by
  induction pipes generalizing t with
  | nil => rfl
  | cons p pipes ih => exact ih _

/-- In `t` the ends of `pipes` are open where `t₀` has closed descriptors;
    everything else is as in `t₀`. -/
structure Opened (t₀ : Table α) (pipes : List Pipe) (t : Table α) : Prop where
  limit : t.limit = t₀.limit
  fresh : ∀ fd ∈ ends pipes, t₀.slot fd = none
  outside : ∀ fd ∉ ends pipes, t.slot fd = t₀.slot fd
  read : ∀ k p, pipes[k]? = some p → t.slot p.1 = some (.readEnd k)
  write : ∀ k p, pipes[k]? = some p → t.slot p.2 = some (.writeEnd k)

theorem opened_nil (t : Table α) : Opened t [] t where
  limit := rfl
  fresh := by simp
  outside := fun _ _ => rfl
  read := by simp
  write := by simp

/-- An open descriptor is not taken for a pipe. -/
theorem Opened.not_mem {t₀ t : Table α} {pipes : List Pipe} (h : Opened t₀ pipes t) {fd : ℕ}
    {d : Desc α} (hfd : t₀.slot fd = some d) : fd ∉ ends pipes := by
  intro hmem
  rw [h.fresh fd hmem] at hfd
  cases hfd

/-- The next `pipe` succeeds. -/
theorem Opened.snoc {t₀ t t' : Table α} {pipes : List Pipe} {p : Pipe} (h : Opened t₀ pipes t)
    (hp : t.pipe (.readEnd pipes.length) (.writeEnd pipes.length) = some (p, t')) :
    Opened t₀ (pipes ++ [p]) t' := by
  obtain ⟨r, w⟩ := p
  obtain ⟨hr, hw, hne, hlimit, hslot⟩ := FdTable.pipe_eq_some hp
  -- the ends of the earlier pipes are open, those of the new one were closed
  have hold : ∀ fd ∈ ends pipes, fd ≠ r ∧ fd ≠ w := by
    intro fd hfd
    obtain ⟨q, hq, hfd⟩ := List.mem_flatMap.mp hfd
    obtain ⟨k, hk⟩ := List.mem_iff_getElem?.mp hq
    have hopen : t.slot fd ≠ none := by
      rcases List.mem_pair.mp hfd with rfl | rfl
      · rw [h.read k q hk]
        exact Option.some_ne_none _
      · rw [h.write k q hk]
        exact Option.some_ne_none _
    constructor
    · rintro rfl
      exact hopen hr
    · rintro rfl
      exact hopen hw
  have hnew : ∀ fd, fd ≠ r → fd ≠ w → t'.slot fd = t.slot fd := by
    intro fd h₁ h₂
    rw [hslot, Function.update_of_ne h₂, Function.update_of_ne h₁]
  -- a descriptor that was closed and is no pipe end was closed at the start
  have hclosed : ∀ fd, t.slot fd = none → fd ∉ ends pipes → t₀.slot fd = none := by
    intro fd hfd hmem
    rw [← h.outside fd hmem, hfd]
  constructor
  · rw [hlimit, h.limit]
  · intro fd hfd
    simp only [ends_append, ends_cons, ends_nil, List.mem_append, List.mem_cons,
      List.not_mem_nil, or_false] at hfd
    rcases hfd with hfd | rfl | rfl
    · exact h.fresh fd hfd
    · exact hclosed _ hr fun hmem => (hold _ hmem).1 rfl
    · exact hclosed _ hw fun hmem => (hold _ hmem).2 rfl
  · intro fd hfd
    simp only [ends_append, ends_cons, ends_nil, List.mem_append, List.mem_cons,
      List.not_mem_nil, or_false, not_or] at hfd
    rw [hnew fd hfd.2.1 hfd.2.2, h.outside fd hfd.1]
  · intro k q hq
    rw [List.getElem?_append] at hq
    split at hq
    · next hk =>
      have hmem := hold _ (mem_ends hq).1
      rw [hnew _ hmem.1 hmem.2, h.read k q hq]
    · next hk =>
      obtain ⟨hlt, rfl⟩ := List.getElem?_eq_some_iff.mp hq
      have hk' : k = pipes.length := by simp at hlt; omega
      subst hk'
      simp [hslot, Function.update_of_ne hne]
  · intro k q hq
    rw [List.getElem?_append] at hq
    split at hq
    · next hk =>
      have hmem := hold _ (mem_ends hq).2
      rw [hnew _ hmem.1 hmem.2, h.write k q hq]
    · next hk =>
      obtain ⟨hlt, rfl⟩ := List.getElem?_eq_some_iff.mp hq
      have hk' : k = pipes.length := by simp at hlt; omega
      subst hk'
      simp [hslot]

/-- The loop over the pipes, also where it stops early. -/
theorem open_pipes_opened {env : Env} {n i : ℕ} {t₀ t t' : Table α} {pipes pipes' : List Pipe}
    {ok : Bool} (h : Opened t₀ pipes t) (hi : pipes.length = i)
    (hrun : open_pipes env n i t pipes = (t', pipes', ok)) :
    Opened t₀ pipes' t' ∧ (ok = true → pipes'.length = i + n) := by
  induction n generalizing i t pipes with
  | zero =>
    cases hrun
    exact ⟨h, fun _ => hi⟩
  | succ n ih =>
    unfold open_pipes at hrun
    split at hrun
    -- the pipe is there, the loop goes on
    · next p t₁ hp _ =>
      subst hi
      obtain ⟨hopened, hlength⟩ := ih (h.snoc hp) (by simp) hrun
      refine ⟨hopened, fun hok => ?_⟩
      rw [hlength hok]
      omega
    · cases hrun
      exact ⟨h, by simp⟩

/-- **Clean-up**: once the pipes are closed the shell has its descriptors back. -/
theorem Opened.close {t₀ t : Table α} {pipes : List Pipe} (h : Opened t₀ pipes t) :
    close_pipes pipes t = t₀ := by
  apply FdTable.ext
  · funext fd
    rw [close_pipes_slot]
    split
    · next hmem => rw [h.fresh fd hmem]
    · next hmem => exact h.outside fd hmem
  · rw [close_pipes_limit, h.limit]

/-! ### A child -/

/-- The descriptors `0` and `1` refer to `d₀` and `d₁`, the others are as in `t`. -/
structure Frame (t : Table α) (d₀ d₁ : Desc α) (fds : Table α) : Prop where
  stdin : fds.slot 0 = some d₀
  stdout : fds.slot 1 = some d₁
  rest : ∀ fd, 2 ≤ fd → fds.slot fd = t.slot fd

/-- A sequence succeeds if both of its parts do. -/
theorem bind_ok_iff {ε β γ : Type} {x : Except ε β} {f : β → Except ε γ} {c : γ} :
    x.bind f = .ok c ↔ ∃ b, x = .ok b ∧ f b = .ok c := by
  rcases x with e | b
  · exact iff_of_false (by rintro ⟨⟩) (by rintro ⟨_, ⟨⟩, _⟩)
  · constructor
    · intro h
      exact ⟨b, rfl, h⟩
    · rintro ⟨_, ⟨⟩, h⟩
      exact h

theorem orExit_eq_ok {β : Type} {code : ℕ} {fails : Bool} {r : Option β} {b : β}
    (h : orExit code fails r = .ok b) : r = some b := by
  unfold orExit at h
  split at h
  · cases h
    rfl
  · cases h

section steps
variable {t fds fds' : Table α} {d₀ d₁ d : Desc α} {fails fails' : Bool}

theorem Frame.set_stdin (h : Frame t d₀ d₁ fds)
    (hslot : fds'.slot = Function.update fds.slot 0 (some d)) : Frame t d d₁ fds' where
  stdin := by rw [hslot, Function.update_self]
  stdout := by rw [hslot, Function.update_of_ne (by omega), h.stdout]
  rest fd hfd := by rw [hslot, Function.update_of_ne (by omega), h.rest fd hfd]

theorem Frame.set_stdout (h : Frame t d₀ d₁ fds)
    (hslot : fds'.slot = Function.update fds.slot 1 (some d)) : Frame t d₀ d fds' where
  stdin := by rw [hslot, Function.update_of_ne (by omega), h.stdin]
  stdout := by rw [hslot, Function.update_self]
  rest fd hfd := by rw [hslot, Function.update_of_ne (by omega), h.rest fd hfd]

/-- `dup2` of a pipe end onto a standard descriptor. -/
theorem connect_some {fd p : ℕ} (hp : fds.slot p = some d)
    (hrun : connect fails fd (some p) fds = .ok fds') :
    fds'.slot = Function.update fds.slot fd (some d) := by
  have hdup : fds.dup2 p fd = some fds' := orExit_eq_ok hrun
  rw [(FdTable.dup2_eq_some hdup).1, hp]

/-- A redirection of a standard descriptor that is open. -/
theorem redirect_some {fd : ℕ} (hfd : fds.slot fd ≠ none)
    (hrun : redirect fails fails' fd (some d) fds = .ok fds') :
    fds'.slot = Function.update fds.slot fd (some d) := by
  simp only [redirect, bind, bind_ok_iff] at hrun
  obtain ⟨⟨n, t₁⟩, hopen, t₂, hdup, hclose⟩ := hrun
  cases hclose
  exact (FdTable.redirect_eq_some hfd (orExit_eq_ok hopen) (orExit_eq_ok hdup)).1

/-- The file of a redirection, if there is one, replaces standard input. -/
theorem Frame.redirect_stdin {o : Option (Desc α)} (h : Frame t d₀ d₁ fds)
    (hrun : redirect fails fails' 0 o fds = .ok fds') : Frame t (o.getD d₀) d₁ fds' := by
  cases o with
  | none =>
    cases hrun
    exact h
  | some d => exact h.set_stdin (redirect_some (by simp [h.stdin]) hrun)

theorem Frame.redirect_stdout {o : Option (Desc α)} (h : Frame t d₀ d₁ fds)
    (hrun : redirect fails fails' 1 o fds = .ok fds') : Frame t d₀ (o.getD d₁) fds' := by
  cases o with
  | none =>
    cases hrun
    exact h
  | some d => exact h.set_stdout (redirect_some (by simp [h.stdout]) hrun)

variable {pipes : List Pipe} {i nsegs : ℕ} {t₀ : Table α}

/-- Child `i` reads from pipe `i - 1`. -/
theorem Frame.connect_stdin (h : Frame t d₀ d₁ fds) (hopened : Opened t₀ pipes t)
    (hstd : ∀ fd ∈ ends pipes, 2 ≤ fd) (hlen : pipes.length = nsegs - 1) (hi : i < nsegs)
    (hrun : connect fails 0 (if 0 < i then (pipes[i - 1]?).map Prod.fst else none) fds = .ok fds') :
    Frame t (if 0 < i then .readEnd (i - 1) else d₀) d₁ fds' := by
  split at hrun
  · next hpos =>
    rw [if_pos hpos]
    obtain ⟨p, hp⟩ : ∃ p, pipes[i - 1]? = some p :=
      ⟨_, List.getElem?_eq_getElem (show i - 1 < pipes.length by omega)⟩
    rw [hp, Option.map_some] at hrun
    apply h.set_stdin (connect_some _ hrun)
    rw [h.rest _ (hstd _ (mem_ends hp).1), hopened.read _ _ hp]
  · next hpos =>
    rw [if_neg hpos]
    cases hrun
    exact h

/-- Child `i` writes to pipe `i`, unless it is the last. -/
theorem Frame.connect_stdout (h : Frame t d₀ d₁ fds) (hopened : Opened t₀ pipes t)
    (hstd : ∀ fd ∈ ends pipes, 2 ≤ fd) (hlen : pipes.length = nsegs - 1)
    (hrun : connect fails 1 (if i + 1 < nsegs then (pipes[i]?).map Prod.snd else none) fds =
      .ok fds') :
    Frame t d₀ (if i + 1 < nsegs then .writeEnd i else d₁) fds' := by
  split at hrun
  · next hlast =>
    rw [if_pos hlast]
    obtain ⟨p, hp⟩ : ∃ p, pipes[i]? = some p :=
      ⟨_, List.getElem?_eq_getElem (show i < pipes.length by omega)⟩
    rw [hp, Option.map_some] at hrun
    apply h.set_stdout (connect_some _ hrun)
    rw [h.rest _ (hstd _ (mem_ends hp).2), hopened.write _ _ hp]
  · next hlast =>
    rw [if_neg hlast]
    cases hrun
    exact h

end steps

/-- Where child `i` of `nsegs` reads from, with the redirections `r`. -/
def stdinOf (shell : ℕ → Option α) (i : ℕ) (r : Redirs) : Option (Desc α) :=
  match r.in_path with
  | some path => some (.inFile path)
  | none => if 0 < i then some (.readEnd (i - 1)) else (shell 0).map .inherited

/-- Where child `i` of `nsegs` writes to. -/
def stdoutOf (shell : ℕ → Option α) (i nsegs : ℕ) (r : Redirs) : Option (Desc α) :=
  match r.out_path with
  | some path => some (.outFile path r.append)
  | none => if i + 1 < nsegs then some (.writeEnd i) else (shell 1).map .inherited

/-- **A child at its command**: its standard descriptors lead to the
    neighbouring pipes or to the files of its redirections, and all others are
    those that the shell had before it opened the pipes. -/
theorem child_setup_ok {shell : FdTable α} {t fds : Table α} {pipes : List Pipe} {i nsegs : ℕ}
    {words argv : List Word} {fails : ChildCall → Bool} {a₀ a₁ : α}
    (hopened : Opened (shell.map .inherited) pipes t) (hlen : pipes.length = nsegs - 1)
    (hi : i < nsegs) (h₀ : shell.slot 0 = some a₀) (h₁ : shell.slot 1 = some a₁)
    (hrun : child_setup fails i nsegs pipes words t = .ok (fds, argv)) :
    ∃ r, extract_redirs words = some (argv, r) ∧ argv ≠ [] ∧
      fds.slot 0 = stdinOf shell.slot i r ∧ fds.slot 1 = stdoutOf shell.slot i nsegs r ∧
      ∀ fd, 2 ≤ fd → fds.slot fd = (shell.slot fd).map .inherited := by
  simp only [child_setup, bind, bind_ok_iff] at hrun
  obtain ⟨t₁, hin, t₂, hout, ⟨words', r⟩, hredirs, t₃, hread, t₄, hwrite, hend⟩ := hrun
  split at hend
  · cases hend
  next hne =>
  cases hend
  -- the ends of the pipes are no standard descriptors
  have hends₀ : 0 ∉ ends pipes := hopened.not_mem (d := .inherited a₀) (by simp [h₀])
  have hends₁ : 1 ∉ ends pipes := hopened.not_mem (d := .inherited a₁) (by simp [h₁])
  have hstd : ∀ fd ∈ ends pipes, 2 ≤ fd := by
    intro fd hfd
    by_contra hlt
    obtain rfl | rfl : fd = 0 ∨ fd = 1 := by omega
    · exact hends₀ hfd
    · exact hends₁ hfd
  have hframe : Frame t (.inherited a₀) (.inherited a₁) t :=
    ⟨by simp [hopened.outside 0 hends₀, h₀], by simp [hopened.outside 1 hends₁, h₁],
      fun _ _ => rfl⟩
  -- the four calls on descriptors 0 and 1, in the order of the code
  have hlinked := (hframe.connect_stdin hopened hstd hlen hi hin).connect_stdout hopened hstd hlen
    hout
  have hwired := (hlinked.redirect_stdin hread).redirect_stdout hwrite
  refine ⟨r, orExit_eq_ok hredirs, hne, ?_, ?_, ?_⟩
  · rw [close_pipes_slot, if_neg hends₀, hwired.stdin]
    unfold stdinOf
    cases r.in_path with
    | some path => rfl
    | none => split <;> simp_all
  · rw [close_pipes_slot, if_neg hends₁, hwired.stdout]
    unfold stdoutOf
    cases r.out_path with
    | some path => rfl
    | none => split <;> simp_all
  · intro fd hfd
    rw [← FdTable.map_slot, close_pipes_slot]
    split
    · next hmem => rw [hopened.fresh fd hmem]
    · next hmem => rw [hwired.rest fd hfd, hopened.outside fd hmem]

/-! ### The whole pipeline -/

section parent
variable {env : Env} {t : Table α} {pipes : List Pipe} {nsegs : ℕ}

/-- The children forked by the loop, in order, each with its own segment. -/
theorem fork_children_spec {argvs : List (List Word)} {i : ℕ} {cs cs' : List (Child α)}
    {ok : Bool} (hrun : fork_children env nsegs pipes t argvs i cs = (cs', ok)) :
    ∃ new, cs' = cs ++ new ∧ ∀ j c, new[j]? = some c → ∃ words, argvs[j]? = some words ∧
      env.fork (i + j) = some c.pid ∧
      c.setup = child_setup (env.childFails (i + j)) (i + j) nsegs pipes words t := by
  induction argvs generalizing i cs with
  | nil =>
    cases hrun
    exact ⟨[], by simp, by simp⟩
  | cons words argvs ih =>
    unfold fork_children at hrun
    split at hrun
    · cases hrun
      exact ⟨[], by simp, by simp⟩
    · next pid hpid =>
      obtain ⟨new, rfl, hnew⟩ := ih hrun
      refine ⟨_ :: new, by rw [List.append_assoc, List.singleton_append], ?_⟩
      intro j c hc
      cases j with
      | zero =>
        cases hc
        exact ⟨words, rfl, hpid, rfl⟩
      | succ j =>
        obtain ⟨words', hwords, hfork, hsetup⟩ := hnew j c hc
        have hij : i + (j + 1) = i + 1 + j := by omega
        rw [hij]
        exact ⟨words', hwords, hfork, hsetup⟩

/-- The last loop waits for every process once. -/
theorem wait_children_waited (pids : List ℕ) (i : ℕ) (rc : ℤ) (waited : List ℕ) :
    (wait_children env nsegs pids i rc waited).2 = waited ++ pids := by
  induction pids generalizing i rc waited with
  | nil => simp [wait_children]
  | cons pid pids ih =>
    unfold wait_children
    rw [ih, List.append_assoc, List.singleton_append]

/-- On each of its ways out `run_pipeline` has closed the pipes it opened and
    waited for the children it forked. -/
theorem run_pipeline_spec (env : Env) (argvs : List (List Word)) (t₀ : Table α) :
    ∃ pipes t, Opened t₀ pipes t ∧
      (run_pipeline env argvs t₀).fds = close_pipes pipes t ∧
      (run_pipeline env argvs t₀).waited = (run_pipeline env argvs t₀).children.map Child.pid ∧
      ∀ i c, (run_pipeline env argvs t₀).children[i]? = some c →
        pipes.length = argvs.length - 1 ∧ env.fork i = some c.pid ∧
          ∃ words, argvs[i]? = some words ∧
            c.setup = child_setup (env.childFails i) i argvs.length pipes words t := by
  have hnpipes : (if argvs.length > 1 then argvs.length - 1 else 0) = argvs.length - 1 := by
    split <;> omega
  unfold run_pipeline
  simp only [hnpipes]
  split
  -- a `pipe` has failed
  · next t pipes hopen =>
    have hopened := (open_pipes_opened (opened_nil t₀) rfl hopen).1
    exact ⟨pipes, t, hopened, rfl, rfl, by simp⟩
  · next t pipes hopen =>
    obtain ⟨hopened, hlength⟩ := open_pipes_opened (opened_nil t₀) rfl hopen
    have hlen : pipes.length = argvs.length - 1 := by simpa using hlength rfl
    refine ⟨pipes, t, hopened, ?_⟩
    split
    -- a `fork` has failed
    · next cs hfork =>
      obtain ⟨new, rfl, hnew⟩ := fork_children_spec hfork
      refine ⟨rfl, rfl, fun i c hc => ⟨hlen, ?_⟩⟩
      obtain ⟨words, hwords, hpid, hsetup⟩ := hnew i c (by simpa using hc)
      exact ⟨by simpa using hpid, words, hwords, by simpa using hsetup⟩
    · next cs hfork =>
      obtain ⟨new, rfl, hnew⟩ := fork_children_spec hfork
      refine ⟨rfl, by simp [wait_children_waited], fun i c hc => ⟨hlen, ?_⟩⟩
      obtain ⟨words, hwords, hpid, hsetup⟩ := hnew i c (by simpa using hc)
      exact ⟨by simpa using hpid, words, hwords, by simpa using hsetup⟩

end parent

/-- **Pipeline wiring and clean-up**: for all segments and wherever `pipe`,
    `fork` or a call of a child fails,

    - a child that gets to its command reads from the pipe before it (or the
      shell's standard input, or the file of its redirection), writes to the
      pipe after it (or the shell's standard output, or the file), and all of
      its other descriptors are the shell's, so no other end of a pipe is open;
    - the shell is left with the descriptors it had, and has waited once for
      each of the children it forked. -/
theorem pipeline_wiring (env : Env) (argvs : List (List Word)) (shell : FdTable α)
    (h₀ : shell.slot 0 ≠ none) (h₁ : shell.slot 1 ≠ none) :
    (∀ i c fds argv, (run_pipeline env argvs (shell.map .inherited)).children[i]? = some c →
      c.setup = .ok (fds, argv) →
      ∃ words r, argvs[i]? = some words ∧ extract_redirs words = some (argv, r) ∧
        fds.slot 0 = stdinOf shell.slot i r ∧ fds.slot 1 = stdoutOf shell.slot i argvs.length r ∧
        (∀ fd, 2 ≤ fd → fds.slot fd = (shell.slot fd).map .inherited) ∧
        ∀ fd d, fds.slot fd = some d → d.IsPipeEnd → fd = 0 ∨ fd = 1) ∧
    (run_pipeline env argvs (shell.map .inherited)).fds = shell.map .inherited ∧
    (run_pipeline env argvs (shell.map .inherited)).waited =
      (run_pipeline env argvs (shell.map .inherited)).children.map Child.pid ∧
    ∀ i c, (run_pipeline env argvs (shell.map .inherited)).children[i]? = some c →
      env.fork i = some c.pid := by
  obtain ⟨a₀, ha₀⟩ := Option.ne_none_iff_exists'.mp h₀
  obtain ⟨a₁, ha₁⟩ := Option.ne_none_iff_exists'.mp h₁
  obtain ⟨pipes, t, hopened, hfds, hwaited, hchildren⟩ :=
    run_pipeline_spec env argvs (shell.map .inherited)
  refine ⟨?_, hfds.trans hopened.close, hwaited, fun i c hc => (hchildren i c hc).2.1⟩
  intro i c fds argv hc hok
  obtain ⟨hlen, -, words, hwords, hsetup⟩ := hchildren i c hc
  have hi : i < argvs.length := (List.getElem?_eq_some_iff.mp hwords).1
  rw [hsetup] at hok
  obtain ⟨r, hredirs, -, hin, hout, hrest⟩ := child_setup_ok hopened hlen hi ha₀ ha₁ hok
  refine ⟨words, r, hwords, hredirs, hin, hout, hrest, ?_⟩
  intro fd d hd hpipe
  by_contra hstd
  -- another descriptor is one of the shell's own
  rw [hrest fd (by omega)] at hd
  obtain ⟨a, -, rfl⟩ := Option.map_eq_some_iff.mp hd
  exact hpipe

/-- A shell with three descriptors. -/
def terminal : FdTable Unit where
  slot fd := if fd < 3 then some () else none
  limit := 16
  closed fd h := if_neg (by omega)

/-- Nothing fails; process ids are given out from 100 on. -/
def calm : Env where
  pipeFails _ := false
  fork i := some (100 + i)
  childFails _ _ := false
  waitpid _ := some (.exited 0)

/-- Three commands, the second with its output redirected by `>>`. -/
def threeSegments : List (List Word) := [[[1]], [[2], GTGT, [9]], [[3]]]

/-- The second command reads from the first one and appends to its file. -/
theorem pipeline_wiring_three : ∃ c fds,
    (run_pipeline calm threeSegments (terminal.map .inherited)).children[1]? = some c ∧
      c.setup = .ok (fds, [[2]]) ∧ fds.slot 0 = some (.readEnd 0) ∧
      fds.slot 1 = some (.outFile [9] true) ∧ (∀ fd, 3 ≤ fd → fds.slot fd = none) ∧
      (run_pipeline calm threeSegments (terminal.map .inherited)).fds =
        terminal.map .inherited := by
  have hrun : ((run_pipeline calm threeSegments (terminal.map .inherited)).children[1]?).any
      (fun c => c.setup.toOption.any fun r => r.2 == [[2]]) = true := by
    decide +kernel
  obtain ⟨c, hc, hsome⟩ := (Option.any_eq_true _ _).mp hrun
  obtain ⟨⟨fds, argv⟩, hsetup, hargv⟩ := (Option.any_eq_true _ _).mp hsome
  obtain rfl : argv = [[2]] := by simpa using hargv
  have hok : c.setup = .ok (fds, [[2]]) := by
    cases hr : c.setup with
    | error e => simp [hr, Except.toOption] at hsetup
    | ok r => simpa [hr, Except.toOption] using hsetup
  obtain ⟨hwiring, hfds, -⟩ := pipeline_wiring calm threeSegments terminal (by decide) (by decide)
  obtain ⟨words, r, hwords, hredirs, hin, hout, hrest, -⟩ := hwiring 1 c fds [[2]] hc hok
  obtain rfl : words = [[2], GTGT, [9]] := by simpa [threeSegments] using hwords.symm
  obtain rfl : r = ⟨none, some [9], true⟩ := by
    have hr : extract_redirs [[2], GTGT, [9]] = some ([[2]], ⟨none, some [9], true⟩) := by decide
    rw [hr] at hredirs
    cases hredirs
    rfl
  refine ⟨c, fds, hc, hok, hin, hout, ?_, hfds⟩
  intro fd hfd
  rw [hrest fd (by omega)]
  simp [terminal, show ¬ fd < 3 by omega]

end Myshell
