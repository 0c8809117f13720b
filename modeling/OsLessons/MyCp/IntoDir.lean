import OsLessons.MyCp.Operands

/-! # my_cp: what `SRC... DIR` leaves

  Every copy that is made is a store (`Copied`), so that the rules of `Stores`
  tell what is where in the end (`copied_into`).
-/

namespace MyCp

open FileSystem

/-- The content of the file that a path leads to. -/
def content (fs : FS) (path : Path) : List UInt8 := (fs.stat path).elim [] fs.data

/-- `DIR/basename(SRC)` -/
def DirTarget (dest src : Path) : Path := join dest (basename src)

/-- Regular sources that no target leads to, and targets that are not cut. -/
structure Operands (fs : FS) (dest : Path) (srcs : List Path) : Prop where
  regular : ∀ src ∈ srcs, ∃ i, fs.stat src = some i ∧ fs.isReg i
  apart : ∀ src ∈ srcs, ∀ src' ∈ srcs, ∀ i, fs.stat src = some i →
    fs.stat (DirTarget dest src') ≠ some i
  fits : ∀ src ∈ srcs, (DirTarget dest src).length < PATH_MAX

/-- What is to be stored, and where. -/
def planned (fs : FS) (dest : Path) (srcs : List Path) : List (Path × List UInt8) :=
  srcs.map fun src => (DirTarget dest src, content fs src)

/-- A symbolic link that `-f` removes is on the way of no earlier target, and no
    later source leads to the file that takes its place. -/
def SparesLinks (fuel : ℕ) (env : ℕ → Env) (o : Opts) (dest : Path) (srcs : List Path)
    (p : Proc) : Prop :=
  ∀ done src rest q d n, srcs = done ++ src :: rest →
    copy_into fuel env o dest done p = some (0, q) →
    Removes (env done.length) o q.fs (DirTarget dest src) d n →
    q.fs.EndsAtLink (DirTarget dest src) →
    (∀ s ∈ done, ¬ q.fs.BreaksOff d n (DirTarget dest s)) ∧
      ∀ s ∈ rest, (q.fs.remove d n).resolve true s ≠ .missing d n

/-- On the way of the path to `i` there is the name of a target, which `-f` removes. -/
def NameLost (fuel : ℕ) (env : ℕ → Env) (o : Opts) (dest : Path) (srcs : List Path) (p : Proc)
    (path : Path) (i : Ino) : Prop :=
  ∃ done src rest q d n, srcs = done ++ src :: rest ∧
    copy_into fuel env o dest done p = some (0, q) ∧
    Removes (env done.length) o q.fs (DirTarget dest src) d n ∧
    (q.fs.remove d n).stat path ≠ some i

variable {fuel : ℕ} {env : ℕ → Env} {o : Opts} {dest src : Path} {srcs rest : List Path}
  {p q : Proc} {fs fs' : FS} {files : List Ino} {i : Ino}

theorem content_eq (h : fs.stat src = some i) : content fs src = fs.data i := by
  rw [content, h, Option.elim_some]

theorem Operands.target_eq (h : Operands fs dest srcs) (hsrc : src ∈ srcs) :
    target dest src = DirTarget dest src := by
  obtain ⟨i, hstat, -⟩ := h.regular src hsrc
  exact MyCp.target_eq (p := ⟨fs, [], []⟩) hstat (h.fits src hsrc)

/-- The source of an operand is as it was, and no target leads to it. -/
theorem Operands.source (h : Operands fs dest (srcs ++ rest))
    (hrun : fs.Stores (planned fs dest srcs) files fs') (hsrc : src ∈ rest)
    (hstat : fs.stat src = some i) : fs'.isReg i ∧ fs'.node i = fs.node i ∧
      ∀ src' ∈ srcs ++ rest, fs'.stat (DirTarget dest src') ≠ some i := by
  have hmem : src ∈ srcs ++ rest := List.mem_append_right _ hsrc
  obtain ⟨i', hstat', hreg⟩ := h.regular src hmem
  obtain rfl : i = i' := Option.some.inj (hstat.symm.trans hstat')
  have hlt := FS.lt_next_of_isReg hreg
  have hnode : fs'.node i = fs.node i := by
    refine hrun.node hlt (FS.isDir_of_isReg hreg) fun dst hdst => ?_
    obtain ⟨s, hs, rfl⟩ := List.mem_map.mp hdst
    exact h.apart src hmem s (List.mem_append_left _ hs) i hstat
  exact ⟨(FS.isReg_congr hnode).trans hreg, hnode,
    fun s hs => hrun.apart hlt (h.apart src hmem s hs i hstat)⟩

theorem NameLost.append {path : Path} (h : NameLost fuel env o dest srcs p path i) :
    NameLost fuel env o dest (srcs ++ [src]) p path i := by
  obtain ⟨done, s, rest, q, d, n, rfl, hrun⟩ := h
  exact ⟨done, s, rest ++ [src], q, d, n, by simp, hrun⟩

/-- The copies of `srcs` have been made: each is a store, the sources that are
    to come are where they were, or cannot be reached, and what no removed name
    was on the way of is where it was. -/
structure Copied (fuel : ℕ) (env : ℕ → Env) (o : Opts) (dest : Path) (p : Proc)
    (srcs rest : List Path) (files : List Ino) (q : Proc) : Prop where
  stores : p.fs.Stores (planned p.fs dest srcs) files q.fs
  reached : ∀ (k : ℕ) (src : Path) (j : Ino), srcs[k]? = some src → files[k]? = some j →
    ∃ q', copy_into fuel env o dest (srcs.take (k + 1)) p = some (0, q') ∧
      q'.fs.stat (DirTarget dest src) = some j
  sources : ∀ src ∈ rest, ∀ i, p.fs.stat src = some i → q.fs.OnlyTo src i
  names : ∀ path i, p.fs.stat path = some i →
    q.fs.stat path = some i ∨ NameLost fuel env o dest srcs p path i

theorem Copied.init (p : Proc) : Copied fuel env o dest p [] rest [] p where
  stores := .nil
  reached k src j h := by cases h
  sources _ _ _ h := .inl h
  names _ _ h := .inl h

/-- A source that is copied has been reached. -/
theorem stat_of_copied (honly : q.fs.OnlyTo src i) {dst : Path} {env : Env} {r : Result}
    (hr : copy_file fuel env o src dst q = some r) (hrc : r.rc = 0) : q.fs.stat src = some i := by
  refine honly.resolve_right fun ⟨err, herr⟩ => ?_
  obtain ⟨r', hr', hrc', -⟩ : ∃ r, copy_file fuel env o src dst q = some r ∧ r.rc = -1 ∧
    r.proc.fs = q.fs := copy_file_refused (.inr (.inl (FS.stat_eq_none_of_error herr)))
  rw [hr, Option.some.injEq] at hr'
  subst hr'
  rw [hrc] at hrc'
  cases hrc'

/-- One copy more. -/
theorem Copied.append (h : Copied fuel env o dest p srcs (src :: rest) files q)
    (hi : o.i = false) (hops : Operands p.fs dest (srcs ++ src :: rest))
    (hspares : SparesLinks fuel env o dest (srcs ++ src :: rest) p)
    (hinit : copy_into fuel env o dest srcs p = some (0, q)) {r : Result}
    (hr : copy_file fuel (env srcs.length) o src (DirTarget dest src) q = some r)
    (hrc : r.rc = 0) (hrun : copy_into fuel env o dest (srcs ++ [src]) p = some (0, r.proc)) :
    ∃ j, Copied fuel env o dest p (srcs ++ [src]) rest (files ++ [j]) r.proc := by
  have hmem : src ∈ srcs ++ src :: rest := List.mem_append_right _ List.mem_cons_self
  obtain ⟨i, hstat, -⟩ := hops.regular src hmem
  obtain ⟨hreg, hnode, -⟩ := hops.source h.stores List.mem_cons_self hstat
  have hend := not_declined hi hr
  obtain ⟨fs₁, fs₂, j, hforced, hopen, hfs⟩ :=
    copy_file_stored (stat_of_copied (h.sources src List.mem_cons_self i hstat) hr hrc) hreg hr hrc
      hend
  have hentered := FS.open_trunc_entered hopen
  have hstored : fs₁.Stored r.proc.fs (DirTarget dest src) j (content p.fs src) := by
    rw [hfs, FS.data_congr hnode, ← content_eq hstat]
    exact stored_of_opened (FS.open_trunc_ok hopen) hentered
  have hstats : ∀ path, r.proc.fs.stat path = fs₂.stat path := fun path => by
    rw [hfs, FS.stat, FS.resolve_setData, ← FS.stat]
  have hlength : files.length = srcs.length := by rw [h.stores.length, planned, List.length_map]
  refine ⟨j, ?_, fun k s j' hk hj' => ?_, fun s hs k hk => ?_, fun path k hk => ?_⟩
  · rw [planned, List.map_append, List.map_singleton]
    refine h.stores.snoc hforced.cleared hstored fun dst hdst k hk => ?_
    obtain ⟨s, hs, rfl⟩ := List.mem_map.mp hdst
    rw [hstats]
    exact hforced.spares hopen (fun d n hremoves hlink =>
      (hspares srcs src rest q d n rfl hinit hremoves hlink).1 s hs) hk
  · rcases getElem?_snoc hk with ⟨hlt, hk⟩ | ⟨rfl, rfl⟩
    · rw [List.getElem?_append_left (hlength ▸ hlt)] at hj'
      rw [List.take_append_of_le_length hlt]
      exact h.reached k s j' hk hj'
    · rw [← hlength, List.getElem?_concat_length, Option.some.injEq] at hj'
      subst hj'
      refine ⟨r.proc, ?_, hstored.stat⟩
      rwa [List.take_of_length_le (by simp)]
  · -- a source that is to come
    have hs' : s ∈ src :: rest := List.mem_cons_of_mem _ hs
    have hne := (hops.source h.stores hs' hk).2.2 src hmem
    have hforced' := hforced.onlyTo (h.sources s hs' k hk) hne fun d n hremoves hlink =>
      (hspares srcs src rest q d n rfl hinit hremoves hlink).2 s hs
    have honly := hentered.onlyTo hforced'
    rwa [hfs, FS.OnlyTo, FS.stat, FS.resolve_setData, ← FS.stat]
  · rcases h.names path k hk with hq | hlost
    · rw [hstats]
      rcases hforced with rfl | ⟨d, n, hremoves, rfl⟩
      · exact .inl (hentered.stat hq)
      · by_cases hkept : (q.fs.remove d n).stat path = some k
        · exact .inl (hentered.stat hkept)
        · exact .inr ⟨srcs, src, [], q, d, n, rfl, hinit, hremoves, hkept⟩
    · exact .inr hlost.append

/-- A run that ends with 0 has made all copies. -/
theorem copy_into_copied (hi : o.i = false) (hops : Operands p.fs dest (srcs ++ rest))
    (hspares : SparesLinks fuel env o dest (srcs ++ rest) p)
    (hrun : copy_into fuel env o dest srcs p = some (0, q)) :
    ∃ files, Copied fuel env o dest p srcs rest files q := by
  induction srcs using List.reverseRecOn generalizing q rest with
  | nil =>
    cases hrun
    exact ⟨[], .init p⟩
  | append_singleton srcs src ih =>
    obtain ⟨q₁, r, hinit, hr, hrc, rfl⟩ := copy_into_append_zero hrun
    rw [List.append_assoc, List.singleton_append] at hops hspares
    obtain ⟨files, hcopied⟩ := ih hops hspares hinit
    rw [hops.target_eq (List.mem_append_right _ List.mem_cons_self)] at hr
    obtain ⟨j, hnext⟩ := hcopied.append hi hops hspares hinit hr hrc hrun
    exact ⟨_, hnext⟩

/-- The loop ends: as long as all copies are made, the sources are as they were. -/
theorem copy_into_some (hi : o.i = false) (hops : Operands p.fs dest (srcs ++ rest))
    (hspares : SparesLinks fuel env o dest (srcs ++ rest) p)
    (hfuel : ∀ src ∈ srcs, 2 * (content p.fs src).length < fuel) :
    ∃ status q, copy_into fuel env o dest srcs p = some (status, q) := by
  induction srcs using List.reverseRecOn generalizing rest with
  | nil => exact ⟨0, p, rfl⟩
  | append_singleton srcs src ih =>
    rw [List.append_assoc, List.singleton_append] at hops hspares
    obtain ⟨status, q, hrun⟩ := ih hops hspares fun s hs => hfuel s (List.mem_append_left _ hs)
    rw [copy_into_append, hrun, Option.bind_some]
    rcases eq_or_ne status 0 with rfl | hne
    · obtain ⟨files, hcopied⟩ := copy_into_copied hi hops hspares hrun
      obtain ⟨i, hstat, -⟩ := hops.regular src (List.mem_append_right _ List.mem_cons_self)
      obtain ⟨hreg, hnode, -⟩ := hops.source hcopied.stores List.mem_cons_self hstat
      have hlength := hfuel src (List.mem_append_right _ (List.mem_singleton_self _))
      rw [content_eq hstat, ← FS.data_congr hnode] at hlength
      obtain ⟨r, hr⟩ : ∃ r, copy_file fuel (env srcs.length) o src (target dest src) q = some r := by
        rcases hcopied.sources src List.mem_cons_self i hstat with hfound | ⟨err, herr⟩
        · exact copy_file_some hfound hreg hlength
        · obtain ⟨r, hr, -⟩ := copy_file_refused (.inr (.inl (FS.stat_eq_none_of_error herr)))
          exact ⟨r, hr⟩
      exact ⟨r.status, r.proc, by simp [hr]⟩
    · exact ⟨status, q, if_neg hne⟩

/-- Sources are copied into a directory without `-i`, no target is cut, and the
    symbolic links that `-f` removes are on the way of no earlier target, and not
    what a later source leads to. If the exit status is 0, then each target leads
    to a file with the content of a source: its own, or that of the last operand
    that was copied to the same file. No other file has changed, and paths lead
    where they led, unless `-f` has removed a name on the way; or to one of the
    files copied to. -/
theorem copied_into (fuel : ℕ) (env : ℕ → Env) (o : Opts) (srcs : List Path) (dest : Path)
    (p : Proc) (d : Ino) (hdest : p.fs.stat dest = some d) (hdir : p.fs.isDir d)
    (hi : o.i = false) (hops : Operands p.fs dest srcs)
    (hspares : SparesLinks fuel env o dest srcs p)
    (hfuel : ∀ src ∈ srcs, 2 * (content p.fs src).length < fuel) :
    ∃ status q, my_cp fuel env o (srcs ++ [dest]) p = some (status, q) ∧
      (status = 0 → ∃ files : List Ino, files.length = srcs.length ∧
        (∀ k src j, srcs[k]? = some src → files[k]? = some j →
          ∃ q', copy_into fuel env o dest (srcs.take (k + 1)) p = some (0, q') ∧
            q'.fs.stat (DirTarget dest src) = some j) ∧
        (∀ k src, srcs[k]? = some src → ∃ m src' j, k ≤ m ∧ srcs[m]? = some src' ∧
          files[m]? = some j ∧ (∀ m' : ℕ, m < m' → files[m']? ≠ some j) ∧
          q.fs.stat (DirTarget dest src) = some j ∧
          (q.fs.isReg j → q.fs.node j = .reg (content p.fs src'))) ∧
        (∀ i, p.fs.isDir i = false → i ∉ files → q.fs.node i = p.fs.node i) ∧
        (∀ path i, p.fs.stat path = some i →
          q.fs.stat path = some i ∨ NameLost fuel env o dest srcs p path i) ∧
        ∀ path i, q.fs.stat path = some i → p.fs.stat path = some i ∨ i ∈ files) := by
  rcases eq_or_ne srcs [] with rfl | hsome
  · exact ⟨1, p.say .usage, rfl, fun h => by cases h⟩
  rw [← List.append_nil srcs] at hops hspares
  obtain ⟨status, q, hrun⟩ := copy_into_some hi hops hspares hfuel
  refine ⟨status, q, (my_cp_into hsome hdest hdir).trans hrun, ?_⟩
  rintro rfl
  obtain ⟨files, hcopied⟩ := copy_into_copied hi hops hspares hrun
  have hstores := hcopied.stores
  have hplanned : ∀ {k src}, srcs[k]? = some src →
      (planned p.fs dest srcs)[k]? = some (DirTarget dest src, content p.fs src) := fun hk => by
    rw [planned, List.getElem?_map, hk, Option.map_some]
  have hlength : files.length = srcs.length := by rw [hstores.length, planned, List.length_map]
  refine ⟨files, hlength, hcopied.reached, fun k src hk => ?_,
    fun i hdir hmem => hstores.keeps hdir hmem, hcopied.names,
    fun path i hstat => (hstores.stat_back hstat).imp_right And.left⟩
  obtain ⟨m₀, j, hkm, hm₀, hstat⟩ := hstores.reached (hplanned hk)
  -- the last operand that was copied to this file
  obtain ⟨m, hm₀m, hm, hlast⟩ := exists_last hm₀
  obtain ⟨src', hsrc'⟩ : ∃ src', srcs[m]? = some src' := by
    have hmlt := (List.getElem?_eq_some_iff.mp hm).1
    rw [hlength] at hmlt
    exact ⟨_, List.getElem?_eq_getElem hmlt⟩
  exact ⟨m, src', j, hkm.trans hm₀m, hsrc', hm, hlast, hstat,
    hstores.content hm hlast (hplanned hsrc')⟩

/-! ### Two small directories -/

def S_A : Path := [0x73, 0x2f, 0x61]
def S_B : Path := [0x73, 0x2f, 0x62]
def T_A : Path := [0x74, 0x2f, 0x61]
def D : Path := [0x64]
def D_A : Path := [0x64, 0x2f, 0x61]
def D_B : Path := [0x64, 0x2f, 0x62]

/-- `s/a` holds 7 and `t/a` 8; `d` is empty. -/
def sameNames : FS :=
  .ofPlans [.folder [([0x73], 1), ([0x74], 2), (D, 3)], .folder [([0x61], 4)],
    .folder [([0x61], 5)], .folder [], .file [7], .file [8]]

/-- `d/a` is a link to `b/x`, and `d/b` one to the directory `/e`. -/
def throughLink : FS :=
  .ofPlans [.folder [([0x73], 1), (D, 2), ([0x65], 3)], .folder [([0x61], 4), ([0x62], 5)],
    .folder [([0x61], 6), ([0x62], 7)], .folder [([0x78], 8)], .file [7], .file [8],
    .link [0x62, 0x2f, 0x78], .link [0x2f, 0x65], .file []]

theorem operands_throughLink : Operands throughLink D [S_B] where
  regular src hsrc := by
    obtain rfl := List.mem_singleton.mp hsrc
    exact ⟨5, by decide, by decide⟩
  apart src hsrc src' hsrc' i hi := by
    obtain rfl := List.mem_singleton.mp hsrc
    obtain rfl := List.mem_singleton.mp hsrc'
    obtain rfl : 5 = i := Option.some.inj
      ((show throughLink.stat S_B = some 5 by decide).symm.trans hi)
    decide
  fits := by decide

/-- There are no other targets and sources. -/
theorem sparesLinks_singleton : SparesLinks fuel env o dest [src] p := by
  intro done s rest q d n hsplit
  rw [List.singleton_eq_append_iff] at hsplit
  rcases hsplit with ⟨rfl, hrest⟩ | ⟨-, hrest⟩
  · cases hrest
    exact fun _ _ _ => ⟨fun s hs => absurd hs List.not_mem_nil,
      fun s hs => absurd hs List.not_mem_nil⟩
  · cases hrest

/-- The link `d/b` is removed for the only copy. -/
theorem copied_into_small :
    ∃ q j, my_cp 3 (fun _ => calm) { plain with f := true } [S_B, D] ⟨throughLink, [], []⟩ =
        some (0, q) ∧
      q.fs.stat D_B = some j ∧ (q.fs.isReg j → q.fs.node j = .reg [8]) := by
  obtain ⟨status, q, hrun, hzero⟩ := copied_into 3 (fun _ => calm) { plain with f := true } [S_B] D
    ⟨throughLink, [], []⟩ 2 (by decide) (by decide) rfl operands_throughLink
    sparesLinks_singleton (by decide)
  have hstatus : (my_cp 3 (fun _ => calm) { plain with f := true } [S_B, D]
      ⟨throughLink, [], []⟩).map Prod.fst = some 0 := by decide
  rw [show [S_B, D] = [S_B] ++ [D] from rfl, hrun, Option.map_some, Option.some.injEq] at hstatus
  obtain rfl : status = 0 := hstatus
  obtain ⟨files, -, -, hreached, -⟩ := hzero rfl
  obtain ⟨m, src', j, -, hsrc', -, -, hstat, hnode⟩ := hreached 0 S_B rfl
  obtain rfl : src' = S_B := List.mem_singleton.mp (List.mem_of_getElem? hsrc')
  exact ⟨q, j, hrun, hstat, hnode⟩

/-- Both runs end with 0. Of two sources with one name the second is left; and
    with `-f` the link `d/b` has made way for a copy, so that `d/a` leads nowhere. -/
theorem targets_lost :
    (∃ q, my_cp 3 (fun _ => calm) plain [S_A, T_A, D] ⟨sameNames, [], []⟩ = some (0, q) ∧
      content q.fs D_A = [8] ∧ content sameNames S_A = [7]) ∧
    ∃ q, my_cp 3 (fun _ => calm) { plain with f := true } [S_A, S_B, D] ⟨throughLink, [], []⟩ =
        some (0, q) ∧ q.fs.stat D_A = none := by
  have hsame : (my_cp 3 (fun _ => calm) plain [S_A, T_A, D] ⟨sameNames, [], []⟩).map
      (fun r => (r.1, content r.2.fs D_A)) = some (0, [8]) := by decide
  have hlink : (my_cp 3 (fun _ => calm) { plain with f := true } [S_A, S_B, D]
      ⟨throughLink, [], []⟩).map (fun r => (r.1, r.2.fs.stat D_A)) = some (0, none) := by decide
  obtain ⟨⟨status, q⟩, hrun, heq⟩ := Option.map_eq_some_iff.mp hsame
  obtain ⟨⟨status', q'⟩, hrun', heq'⟩ := Option.map_eq_some_iff.mp hlink
  rw [Prod.mk.injEq] at heq heq'
  obtain ⟨rfl, hcontent⟩ := heq
  obtain ⟨rfl, hnowhere⟩ := heq'
  exact ⟨⟨q, hrun, hcontent, by decide⟩, q', hrun', hnowhere⟩

end MyCp
