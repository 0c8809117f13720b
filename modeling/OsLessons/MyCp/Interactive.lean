import OsLessons.MyCp.Questions

/-! # my_cp -i: a run over all operands

  `Asked` is what holds after some of the operands: how many lines were taken,
  which targets were overwritten, and that nothing else has changed.
  `answers_line_up` is the result.
-/

namespace MyCp

open FileSystem

variable {fuel : ℕ} {e : Env} {env : ℕ → Env} {o : Opts} {dest src src' : Path}
  {srcs srcs' : List Path} {p q q' : Proc} {fs : FS} {d i j : Ino} {n : Name}

/-! ### The name of a target -/

theorem slash_of_basename (path : Path) : SLASH ∉ basename path ∨ basename path = [SLASH] := by
  unfold basename
  dsimp only
  split
  · exact .inl (by decide)
  · split
    · exact .inr rfl
    · refine .inl fun hmem => ?_
      have hne := List.mem_rtakeWhile_imp hmem
      simp at hne

theorem last_component_join (dir name : Path) :
    (components (join dir name)).getLast? = (components name).getLast? := by
  have hsplit : ∃ d', join dir name = d' ++ SLASH :: name := by
    unfold join
    split
    · next hlast =>
      obtain ⟨d', rfl⟩ := List.getLast?_eq_some_iff.mp hlast
      exact ⟨d', by rw [List.append_assoc, List.singleton_append]⟩
    · exact ⟨dir, rfl⟩
  obtain ⟨d', hjoin⟩ := hsplit
  rw [hjoin, components, components, List.splitOn_append_cons_self,
    List.getLast?_append_of_ne_nil _ (List.splitOn_ne_nil _ _)]

/-- A target that is missing is missing under the name of the source. -/
theorem name_of_missing (h : fs.resolve false (DirTarget dest src) = .missing d n) :
    n = basename src := by
  obtain ⟨hlast, hnil⟩ := FS.last_of_missing h
  rw [DirTarget, last_component_join] at hlast
  rcases slash_of_basename src with hslash | hslash
  · rw [components, List.splitOn_eq_singleton hslash, List.getLast?_singleton,
      Option.some.injEq] at hlast
    exact hlast.symm
  · rw [hslash] at hlast
    have hempty : (components [SLASH]).getLast? = some [] := by decide
    rw [hempty, Option.some.injEq] at hlast
    exact absurd hlast.symm hnil

/-! ### The operands -/

/-- The targets of two operands do not lead to one file. -/
def Elsewhere (fs : FS) (dest src src' : Path) : Prop :=
  ∀ j, fs.stat (DirTarget dest src) = some j → fs.stat (DirTarget dest src') ≠ some j

instance : Std.Symm (Elsewhere fs dest) := ⟨fun _ _ h j hj hj' => h j hj' hj⟩

/-- The target names are distinct and lead to distinct files. Every target can be
    opened, and none is a dangling link. -/
structure Interactive (fs : FS) (dest : Path) (srcs : List Path) : Prop
    extends Operands fs dest srcs where
  names : (srcs.map (DirTarget dest)).Nodup
  files : srcs.Pairwise (Elsewhere fs dest)
  links : ∀ src ∈ srcs, fs.EndsAtLink (DirTarget dest src) →
    (fs.stat (DirTarget dest src)).isSome
  opens : ∀ src ∈ srcs, ∃ r, fs.open_trunc (DirTarget dest src) = .ok r

/-- The operands whose targets exist. -/
def asked (fs : FS) (dest : Path) (srcs : List Path) : List Path :=
  srcs.filter fun src => (fs.stat (DirTarget dest src)).isSome

theorem Interactive.of_sublist (h : Interactive fs dest srcs) (hs : srcs'.Sublist srcs) :
    Interactive fs dest srcs' where
  regular s hs' := h.regular s (hs.subset hs')
  apart s hs' s' hs'' := h.apart s (hs.subset hs') s' (hs.subset hs'')
  fits s hs' := h.fits s (hs.subset hs')
  names := h.names.sublist (hs.map _)
  files := h.files.sublist hs
  links s hs' := h.links s (hs.subset hs')
  opens s hs' := h.opens s (hs.subset hs')

/-- A target is a file, or it is missing under the name of the source. -/
theorem Interactive.target (h : Interactive fs dest srcs) (hsrc : src ∈ srcs) :
    (∃ j, fs.stat (DirTarget dest src) = some j ∧ fs.isDir j = false) ∨
      ∃ d, fs.stat (DirTarget dest src) = none ∧
        fs.resolve true (DirTarget dest src) = .missing d (basename src) := by
  obtain ⟨r, hr⟩ := h.opens src hsrc
  unfold FS.open_trunc at hr
  split at hr
  · next l j hfound =>
    split at hr
    · cases hr
    · next hdir => exact .inl ⟨j, FS.stat_eq_some.mpr ⟨l, hfound⟩, by simpa using hdir⟩
  · next d n hmissing =>
    have hnone : fs.stat (DirTarget dest src) = none := by rw [FS.stat, hmissing]
    have hlink : ¬ fs.EndsAtLink (DirTarget dest src) := fun hlink => by
      have hsome := h.links src hsrc hlink
      rw [hnone] at hsome
      cases hsome
    have hname := name_of_missing ((FS.resolve_of_not_link hlink).symm.trans hmissing)
    exact .inr ⟨d, hnone, hname ▸ hmissing⟩
  · cases hr

theorem Interactive.name_not_mem (h : Interactive fs dest (srcs ++ [src])) :
    basename src ∉ srcs.map basename := by
  intro hmem
  obtain ⟨s, hs, heq⟩ := List.mem_map.mp hmem
  have hnames := h.names
  rw [List.map_append, List.nodup_append] at hnames
  exact hnames.2.2 _ (List.mem_map_of_mem hs) _ (List.mem_map_of_mem (List.mem_singleton_self src))
    (by rw [DirTarget, DirTarget, heq])

theorem Interactive.files_ne (h : Interactive fs dest (srcs ++ [src])) (hs : src' ∈ srcs)
    (hi : fs.stat (DirTarget dest src') = some i) (hj : fs.stat (DirTarget dest src) = some j) :
    i ≠ j := by
  rintro rfl
  exact (List.pairwise_append.mp h.files).2.2 _ hs _ (List.mem_singleton_self src) i hi hj

/-- Only one operand has its target there. -/
theorem Interactive.target_inj (h : Interactive fs dest srcs) (hs : src ∈ srcs)
    (hs' : src' ∈ srcs) (hi : fs.stat (DirTarget dest src) = some i)
    (hi' : fs.stat (DirTarget dest src') = some i) : src = src' := by
  by_contra hne
  exact h.files.forall hs hs' hne i hi hi'

theorem asked_append_some (h : (fs.stat (DirTarget dest src)).isSome) :
    asked fs dest (srcs ++ [src]) = asked fs dest srcs ++ [src] := by
  rw [asked, List.filter_append, List.filter_cons, if_pos h, List.filter_nil, asked]

theorem asked_append_none (h : fs.stat (DirTarget dest src) = none) :
    asked fs dest (srcs ++ [src]) = asked fs dest srcs := by
  rw [asked, List.filter_append, List.filter_cons, h, if_neg (by simp), List.filter_nil,
    List.append_nil, asked]

/-! ### After some of the operands -/

/-- The question of the operand `src` is answered with yes. -/
def Granted (p : Proc) (dest : Path) (srcs : List Path) (src : Path) : Prop :=
  ∃ k, (asked p.fs dest srcs)[k]? = some src ∧ Consents (line k p.stdin)

/-- After the operands `srcs`. What existed is where it was, and only targets
    that were granted have changed; new targets are copies, and other missing
    entries are still missing. -/
structure Asked (p : Proc) (dest : Path) (srcs : List Path) (q : Proc) : Prop where
  stdin : q.stdin = behind (asked p.fs dest srcs).length p.stdin
  out : questions q.out = questions p.out ++ (asked p.fs dest srcs).map (DirTarget dest)
  next_le : p.fs.next ≤ q.fs.next
  isDir : ∀ i, q.fs.isDir i = p.fs.isDir i
  regular : ∀ i, p.fs.isReg i → q.fs.isReg i
  found : ∀ path i, p.fs.stat path = some i → q.fs.stat path = some i
  missing : ∀ path d n, p.fs.resolve true path = .missing d n → n ∉ srcs.map basename →
    q.fs.resolve true path = .missing d n
  keeps : ∀ i < p.fs.next, p.fs.isDir i = false →
    (∀ src, Granted p dest srcs src → p.fs.stat (DirTarget dest src) ≠ some i) →
    q.fs.node i = p.fs.node i
  overwritten : ∀ src j, Granted p dest srcs src → p.fs.stat (DirTarget dest src) = some j →
    q.fs.isReg j → q.fs.node j = .reg (content p.fs src)
  created : ∀ src ∈ srcs, p.fs.stat (DirTarget dest src) = none →
    ∃ j, p.fs.next ≤ j ∧ q.fs.stat (DirTarget dest src) = some j ∧
      q.fs.node j = .reg (content p.fs src)

theorem mem_of_granted (h : Granted p dest srcs src) : src ∈ srcs := by
  obtain ⟨k, hk, -⟩ := h
  exact List.mem_of_mem_filter (List.mem_of_getElem? hk)

theorem Asked.init (p : Proc) (dest : Path) : Asked p dest [] p where
  stdin := (behind_zero _).symm
  out := (List.append_nil _).symm
  next_le := le_rfl
  isDir _ := rfl
  regular _ h := h
  found _ _ h := h
  missing _ _ _ h _ := h
  keeps _ _ _ _ := rfl
  overwritten src _ h := by cases mem_of_granted h
  created src h := by cases h

/-- The next source is as it was, and its target does not lead to it. -/
theorem Asked.source (h : Asked p dest srcs q) (hops : Interactive p.fs dest (srcs ++ [src])) :
    ∃ i, p.fs.stat src = some i ∧ q.fs.stat src = some i ∧ q.fs.isReg i ∧
      q.fs.data i = content p.fs src := by
  have hlast : src ∈ srcs ++ [src] := List.mem_append_right _ (List.mem_singleton_self _)
  obtain ⟨i, hstat, hreg⟩ := hops.regular src hlast
  have hnode := h.keeps i (FS.lt_next_of_isReg hreg) (FS.isDir_of_isReg hreg) fun s hs =>
    hops.apart src hlast s (List.mem_append_left _ (mem_of_granted hs)) i hstat
  exact ⟨i, hstat, h.found src i hstat, (FS.isReg_congr hnode).trans hreg, by
    rw [FS.data_congr hnode, content_eq hstat]⟩

/-- A target that is missing is made. -/
theorem Asked.create (h : Asked p dest srcs q) (hops : Interactive p.fs dest (srcs ++ [src]))
    (hnone : p.fs.stat (DirTarget dest src) = none)
    (hmissing : q.fs.resolve true (DirTarget dest src) = .missing d (basename src))
    (hstored : q.fs.Stored q'.fs (DirTarget dest src) q.fs.next (content p.fs src))
    (hreg : q'.fs.isReg q.fs.next) (hstdin : q'.stdin = q.stdin)
    (hout : questions q'.out = questions q.out) : Asked p dest (srcs ++ [src]) q' := by
  have hasked : asked p.fs dest (srcs ++ [src]) = asked p.fs dest srcs := asked_append_none hnone
  have hgranted : ∀ s, Granted p dest (srcs ++ [src]) s ↔ Granted p dest srcs s := fun s => by
    rw [Granted, Granted, hasked]
  -- what is found stays where it is
  have hfound : ∀ path i, q.fs.stat path = some i → q'.fs.stat path = some i :=
    fun path i => hstored.names.stat
  have hkeeps : ∀ i < q.fs.next, q.fs.isDir i = false → q'.fs.node i = q.fs.node i :=
    fun i hi hdir => hstored.keeps i hi.ne hdir
  have hdirs : ∀ i, q'.fs.isDir i = q.fs.isDir i := hstored.names.isDir
  constructor
  · rw [hstdin, hasked, h.stdin]
  · rw [hout, hasked, h.out]
  · exact h.next_le.trans hstored.names.grows
  · exact fun i => (hdirs i).trans (h.isDir i)
  · exact fun i hi => hstored.regular i (h.regular i hi)
  · exact fun path i hstat => hfound path i (h.found path i hstat)
  · intro path a b hab hb
    rw [List.map_append, List.mem_append, not_or] at hb
    rcases hstored.names.missing (h.missing path a b hab hb.1) with hsame | ⟨heq, -⟩
    · exact hsame
    · rw [hmissing] at heq
      cases heq
      exact absurd (List.mem_map_of_mem (List.mem_singleton_self src)) hb.2
  · intro i hi hdir hno
    rw [hkeeps i (hi.trans_le h.next_le) ((h.isDir i).trans hdir)]
    exact h.keeps i hi hdir fun s hs => hno s ((hgranted s).mpr hs)
  · intro s j hs hstat hregj
    have hlt : j < q.fs.next := (FS.lt_next_of_stat hstat).trans_le h.next_le
    have hdir : q.fs.isDir j = false := (hdirs j).symm.trans (FS.isDir_of_isReg hregj)
    have hnode := hkeeps j hlt hdir
    rw [hnode]
    exact h.overwritten s j ((hgranted s).mp hs) hstat ((FS.isReg_congr hnode).symm.trans hregj)
  · intro s hs hsnone
    rcases List.mem_append.mp hs with hs | hs
    · obtain ⟨j, hle, hstat, hnode⟩ := h.created s hs hsnone
      have hdir : q.fs.isDir j = false := by rw [FS.isDir, hnode]
      exact ⟨j, hle, hfound _ j hstat, (hkeeps j (FS.lt_next_of_stat hstat) hdir).trans hnode⟩
    · obtain rfl := List.mem_singleton.mp hs
      exact ⟨q.fs.next, h.next_le, hstored.stat, hstored.content hreg⟩

theorem granted_append (h : (p.fs.stat (DirTarget dest src)).isSome) :
    Granted p dest (srcs ++ [src]) src' ↔ Granted p dest srcs src' ∨
      src' = src ∧ Consents (line (asked p.fs dest srcs).length p.stdin) := by
  rw [Granted, Granted, asked_append_some h]
  constructor
  · rintro ⟨k, hk, hyes⟩
    rcases getElem?_snoc hk with ⟨-, hk⟩ | ⟨rfl, rfl⟩
    · exact .inl ⟨k, hk, hyes⟩
    · exact .inr ⟨rfl, hyes⟩
  · rintro (⟨k, hk, hyes⟩ | ⟨rfl, hyes⟩)
    · exact ⟨k, getElem?_init hk, hyes⟩
    · exact ⟨_, List.getElem?_concat_length, hyes⟩

/-- One line more is taken. -/
theorem Asked.stdin_append (h : Asked p dest srcs q)
    (hsome : (p.fs.stat (DirTarget dest src)).isSome) :
    behind 1 q.stdin = behind (asked p.fs dest (srcs ++ [src])).length p.stdin := by
  rw [asked_append_some hsome, List.length_append, List.length_singleton, h.stdin]
  exact (line_behind _ _).2

/-- The target is kept. -/
theorem Asked.decline (h : Asked p dest srcs q)
    (hsome : (p.fs.stat (DirTarget dest src)).isSome)
    (hno : ¬ Consents (line (asked p.fs dest srcs).length p.stdin)) (hfs : q'.fs = q.fs)
    (hstdin : q'.stdin = behind 1 q.stdin)
    (hout : questions q'.out = questions q.out ++ [DirTarget dest src]) :
    Asked p dest (srcs ++ [src]) q' := by
  have hgranted : ∀ s, Granted p dest (srcs ++ [src]) s ↔ Granted p dest srcs s := fun s =>
    (granted_append hsome).trans ⟨fun hs => hs.resolve_right fun hs => hno hs.2, .inl⟩
  constructor
  · rw [hstdin, h.stdin_append hsome]
  · rw [hout, h.out, asked_append_some hsome, List.map_append, List.map_singleton,
      List.append_assoc]
  · exact hfs ▸ h.next_le
  · exact hfs ▸ h.isDir
  · exact hfs ▸ h.regular
  · exact hfs ▸ h.found
  · intro path a b hab hb
    rw [List.map_append, List.mem_append, not_or] at hb
    rw [hfs]
    exact h.missing path a b hab hb.1
  · intro i hi hdir hne
    rw [hfs]
    exact h.keeps i hi hdir fun s hs => hne s ((hgranted s).mpr hs)
  · intro s j hs hstat hreg
    rw [hfs] at hreg ⊢
    exact h.overwritten s j ((hgranted s).mp hs) hstat hreg
  · intro s hs hnone
    rw [hfs]
    rcases List.mem_append.mp hs with hs | hs
    · exact h.created s hs hnone
    · obtain rfl := List.mem_singleton.mp hs
      rw [hnone] at hsome
      cases hsome

/-- The target is overwritten. -/
theorem Asked.overwrite (h : Asked p dest srcs q) (hops : Interactive p.fs dest (srcs ++ [src]))
    (hstat : p.fs.stat (DirTarget dest src) = some j)
    (hyes : Consents (line (asked p.fs dest srcs).length p.stdin))
    (hstored : q.fs.Stored q'.fs (DirTarget dest src) j (content p.fs src))
    (hstdin : q'.stdin = behind 1 q.stdin)
    (hout : questions q'.out = questions q.out ++ [DirTarget dest src]) :
    Asked p dest (srcs ++ [src]) q' := by
  have hsome : (p.fs.stat (DirTarget dest src)).isSome := by
    rw [hstat]
    rfl
  have hjlt : j < p.fs.next := FS.lt_next_of_stat hstat
  -- what is found stays where it is
  have hfound : ∀ path i, q.fs.stat path = some i → q'.fs.stat path = some i :=
    fun path i => hstored.names.stat
  have hdirs : ∀ i, q'.fs.isDir i = q.fs.isDir i := hstored.names.isDir
  constructor
  · rw [hstdin, h.stdin_append hsome]
  · rw [hout, h.out, asked_append_some hsome, List.map_append, List.map_singleton,
      List.append_assoc]
  · exact h.next_le.trans hstored.names.grows
  · exact fun i => (hdirs i).trans (h.isDir i)
  · exact fun i hi => hstored.regular i (h.regular i hi)
  · exact fun path i hi => hfound path i (h.found path i hi)
  · intro path a b hab hb
    rw [List.map_append, List.mem_append, not_or] at hb
    rcases hstored.names.missing (h.missing path a b hab hb.1) with hsame | ⟨heq, -⟩
    · exact hsame
    · have hq := h.found _ _ hstat
      rw [FS.stat, heq] at hq
      cases hq
  · intro i hi hdir hne
    have hij : i ≠ j := by
      rintro rfl
      exact hne src ((granted_append hsome).mpr (.inr ⟨rfl, hyes⟩)) hstat
    rw [hstored.keeps i hij ((h.isDir i).trans hdir)]
    exact h.keeps i hi hdir fun s hs => hne s ((granted_append hsome).mpr (.inl hs))
  · intro s i hs hi hreg
    rcases (granted_append hsome).mp hs with hs | ⟨rfl, -⟩
    · have hij : i ≠ j := hops.files_ne (mem_of_granted hs) hi hstat
      have hnode := hstored.keeps i hij ((hdirs i).symm.trans (FS.isDir_of_isReg hreg))
      rw [hnode]
      exact h.overwritten s i hs hi ((FS.isReg_congr hnode).symm.trans hreg)
    · rw [hstat] at hi
      cases hi
      exact hstored.content hreg
  · intro s hs hnone
    rcases List.mem_append.mp hs with hs | hs
    · obtain ⟨i, hle, hi, hnode⟩ := h.created s hs hnone
      have hij : i ≠ j := (hjlt.trans_le hle).ne'
      have hdir : q.fs.isDir i = false := by rw [FS.isDir, hnode]
      exact ⟨i, hle, hfound _ i hi, (hstored.keeps i hij hdir).trans hnode⟩
    · obtain rfl := List.mem_singleton.mp hs
      rw [hstat] at hnone
      cases hnone

/-! ### All operands -/

/-- The next operand. -/
theorem Asked.step (h : Asked p dest srcs q) (hops : Interactive p.fs dest (srcs ++ [src]))
    (hi : o.i = true) (he : e.Succeeds) (hfuel : 2 * (content p.fs src).length < fuel) :
    ∃ r, copy_file fuel e o src (DirTarget dest src) q = some r ∧ r.rc = 0 ∧
      Asked p dest (srcs ++ [src]) r.proc := by
  have hlast : src ∈ srcs ++ [src] := List.mem_append_right _ (List.mem_singleton_self _)
  obtain ⟨i, hsrc, hsrc', hreg, hdata⟩ := h.source hops
  rw [← hdata] at hfuel
  rcases hops.target hlast with ⟨j, hstat, hdir⟩ | ⟨d, hnone, hmissing⟩
  · have hstat' := h.found _ j hstat
    have hdir' : q.fs.isDir j = false := (h.isDir j).trans hdir
    have hdiff : q.fs.stat (DirTarget dest src) ≠ some i := by
      rw [hstat', ← hstat]
      exact hops.apart src hlast src hlast i hsrc
    have hsome : (p.fs.stat (DirTarget dest src)).isSome := by
      rw [hstat]
      rfl
    have hsome' : (q.fs.stat (DirTarget dest src)).isSome := by
      rw [hstat']
      rfl
    obtain ⟨q₁, hagree, hfs, hstdin, hout⟩ := (agree_eq hi).2 hsome'
    rw [h.stdin, (line_behind _ _).1] at hagree
    by_cases hyes : Consents (line (asked p.fs dest srcs).length p.stdin)
    · rw [decide_eq_true hyes] at hagree
      have hopen := FS.open_trunc_of_not_dir hstat' hdir'
      obtain ⟨r, hr, hrc, hrfs, hrstdin, hrout⟩ :=
        copy_file_agreed he hsrc' hreg hdiff hagree hopen hfuel
      refine ⟨r, hr, hrc, h.overwrite hops hstat hyes ?_ (hrstdin.trans hstdin)
        (hrout.trans hout)⟩
      rw [hrfs, ← hdata]
      exact stored_of_opened (FS.open_trunc_ok hopen) (FS.open_trunc_entered hopen)
    · rw [decide_eq_false hyes] at hagree
      obtain ⟨r, hr, hrc, hrfs, hrstdin, hrout⟩ :=
        copy_file_declined he hsrc' hreg hdiff hagree
      exact ⟨r, hr, hrc, h.decline hsome hyes (hrfs.trans hfs) (hrstdin.trans hstdin)
        (hrout.trans hout)⟩
  · have hmissing' := h.missing _ d _ hmissing hops.name_not_mem
    have hnone' : q.fs.stat (DirTarget dest src) = none := by rw [FS.stat, hmissing']
    have hopen : q.fs.open_trunc (DirTarget dest src) =
        .ok (q.fs.next, q.fs.put d (basename src)) := by
      rw [FS.open_trunc, hmissing']
    obtain ⟨r, hr, hrc, hrfs, hrstdin, hrout⟩ := copy_file_agreed he hsrc' hreg
      (by rw [hnone']; exact (Option.some_ne_none i).symm) ((agree_eq hi).1 hnone') hopen hfuel
    have hopened := FS.open_trunc_ok hopen
    have hnew : (q.fs.put d (basename src)).isReg q.fs.next := by
      rcases hopened.origin with ⟨hstat, -, -⟩ | ⟨-, hreg⟩
      · rw [hnone'] at hstat
        cases hstat
      · exact hreg
    refine ⟨r, hr, hrc, h.create hops hnone hmissing' ?_ ?_ hrstdin hrout⟩
    · rw [hrfs, ← hdata]
      exact stored_of_opened hopened (FS.open_trunc_entered hopen)
    · rw [hrfs, FS.isReg_setData, hnew]

theorem copy_into_asks (hi : o.i = true) (henv : ∀ k, (env k).Succeeds)
    (hops : Interactive p.fs dest srcs)
    (hfuel : ∀ src ∈ srcs, 2 * (content p.fs src).length < fuel) :
    ∃ q, copy_into fuel env o dest srcs p = some (0, q) ∧ Asked p dest srcs q := by
  induction srcs using List.reverseRecOn with
  | nil => exact ⟨p, rfl, .init p dest⟩
  | append_singleton srcs src ih =>
    have hlast : src ∈ srcs ++ [src] := List.mem_append_right _ (List.mem_singleton_self _)
    obtain ⟨q, hrun, hasked⟩ := ih (hops.of_sublist (List.sublist_append_left _ _))
      fun s hs => hfuel s (List.mem_append_left _ hs)
    obtain ⟨r, hr, hrc, hnext⟩ := hasked.step hops hi (henv srcs.length) (hfuel src hlast)
    refine ⟨r.proc, ?_, hnext⟩
    rw [copy_into_append, hrun, Option.bind_some, hops.target_eq hlast]
    simp [hr, Result.status, hrc]

/-- With `-i`, and if no call fails: after any number of operands the targets
    that existed have been asked for in order, and one line has been taken for
    each. In the end the `k`-th of them has been overwritten if the `k`-th line
    starts with `y` or `Y`, and is as it was if not; the others have been made. -/
theorem answers_line_up (fuel : ℕ) (env : ℕ → Env) (o : Opts) (srcs : List Path) (dest : Path)
    (p : Proc) (d : Ino) (hsome : srcs ≠ []) (hdest : p.fs.stat dest = some d)
    (hdir : p.fs.isDir d) (hi : o.i = true) (henv : ∀ k, (env k).Succeeds)
    (hops : Interactive p.fs dest srcs)
    (hfuel : ∀ src ∈ srcs, 2 * (content p.fs src).length < fuel) :
    ∃ q, my_cp fuel env o (srcs ++ [dest]) p = some (0, q) ∧
      (∀ n, ∃ q', copy_into fuel env o dest (srcs.take n) p = some (0, q') ∧
        questions q'.out =
          questions p.out ++ (asked p.fs dest (srcs.take n)).map (DirTarget dest) ∧
        q'.stdin = behind (asked p.fs dest (srcs.take n)).length p.stdin) ∧
      (∀ k src j, (asked p.fs dest srcs)[k]? = some src →
        p.fs.stat (DirTarget dest src) = some j →
        q.fs.stat (DirTarget dest src) = some j ∧
          (Consents (line k p.stdin) → p.fs.isReg j → q.fs.node j = .reg (content p.fs src)) ∧
          (¬ Consents (line k p.stdin) → q.fs.node j = p.fs.node j)) ∧
      ∀ src ∈ srcs, p.fs.stat (DirTarget dest src) = none →
        ∃ j, q.fs.stat (DirTarget dest src) = some j ∧ q.fs.node j = .reg (content p.fs src) := by
  obtain ⟨q, hrun, hasked⟩ := copy_into_asks hi henv hops hfuel
  refine ⟨q, (my_cp_into hsome hdest hdir).trans hrun, fun n => ?_, fun k src j hk hstat => ?_,
    fun src hsrc hnone => ?_⟩
  · obtain ⟨q', hrun', hasked'⟩ := copy_into_asks hi henv (hops.of_sublist (srcs.take_sublist n))
      fun s hs => hfuel s (List.mem_of_mem_take hs)
    exact ⟨q', hrun', hasked'.out, hasked'.stdin⟩
  · refine ⟨hasked.found _ j hstat, fun hyes hreg =>
      hasked.overwritten src j ⟨k, hk, hyes⟩ hstat (hasked.regular j hreg), fun hno => ?_⟩
    have hsrc : src ∈ srcs := List.mem_of_mem_filter (List.mem_of_getElem? hk)
    have hjdir : p.fs.isDir j = false := by
      rcases hops.target hsrc with ⟨j', hj', hdir'⟩ | ⟨-, hnone, -⟩
      · rw [hstat] at hj'
        cases hj'
        exact hdir'
      · rw [hstat] at hnone
        cases hnone
    refine hasked.keeps j (FS.lt_next_of_stat hstat) hjdir fun s hs hs' => ?_
    -- only the `k`-th answer is about this target
    obtain rfl := hops.target_inj (mem_of_granted hs) hsrc hs' hstat
    obtain ⟨k', hk', hyes⟩ := hs
    have hnodup : (asked p.fs dest srcs).Nodup := (hops.names.of_map _).filter _
    have hklt := (List.getElem?_eq_some_iff.mp hk).1
    obtain rfl : k = k' := (List.getElem?_inj hklt hnodup).mp (hk.trans hk'.symm)
    exact hno hyes
  · obtain ⟨j, -, hstat, hnode⟩ := hasked.created src hsrc hnone
    exact ⟨j, hstat, hnode⟩

/-! ### A small run -/

/-- `s/a` holds 7, `d/a` 9. -/
def existing : FS :=
  .ofPlans [.folder [([0x73], 1), (D, 2)], .folder [([0x61], 3)], .folder [([0x61], 4)],
    .file [7], .file [9]]

theorem interactive_existing : Interactive existing D [S_A] where
  regular src hsrc := by
    obtain rfl := List.mem_singleton.mp hsrc
    exact ⟨3, by decide, by decide⟩
  apart src hsrc src' hsrc' i hi := by
    obtain rfl := List.mem_singleton.mp hsrc
    obtain rfl := List.mem_singleton.mp hsrc'
    obtain rfl : 3 = i := Option.some.inj ((show existing.stat S_A = some 3 by decide).symm.trans hi)
    decide
  fits := by decide
  names := by decide
  files := List.pairwise_singleton _ _
  links src hsrc _ := by
    obtain rfl := List.mem_singleton.mp hsrc
    decide
  opens src hsrc := by
    obtain rfl := List.mem_singleton.mp hsrc
    exact ⟨_, FS.open_trunc_of_not_dir (show existing.stat (DirTarget D S_A) = some 4 by decide)
      (by decide)⟩

theorem answers_line_up_small :
    ∃ q, my_cp 3 (fun _ => calm) { plain with i := true } [S_A, D] ⟨existing, [0x59, 0x0a], []⟩ =
        some (0, q) ∧
      q.fs.stat D_A = some 4 ∧ q.fs.node 4 = .reg [7] := by
  obtain ⟨q, hrun, -, hasked, -⟩ := answers_line_up 3 (fun _ => calm) { plain with i := true }
    [S_A] D ⟨existing, [0x59, 0x0a], []⟩ 2 (by decide) (by decide) (by decide) rfl
    (fun _ => ⟨rfl, rfl, fun _ => ⟨0, rfl⟩, rfl⟩) interactive_existing (by decide)
  obtain ⟨hstat, hyes, -⟩ := hasked 0 S_A 4 (by decide) (by decide)
  exact ⟨q, hrun, hstat, hyes (by decide) (by decide)⟩

end MyCp
