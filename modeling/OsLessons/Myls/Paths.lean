import OsLessons.Lib.Resolution
import OsLessons.Myls.Model

/-! # myls: where paths lead

  `At t o loc d`: the directory `d` is reached from the working directory by
  the selected entries `loc`. Its path `pathOf loc` leads to it, and with one
  component more to the entry (`At.resolve_entry`).
-/

namespace Myls

open FileSystem

variable {t : Tree} {o : Opts} {loc loc' : List Name} {d d' i : Ino} {n : Name} {follow : Bool}
  {s : Bool} {e : Name → Option Ino} {path : Path}

/-- Directories that are reached through directories that can be read and searched. -/
inductive At (t : Tree) (o : Opts) : List Name → Ino → Prop where
  | here {e : Name → Option Ino} (hdir : t.fs.node t.fs.cwd = .dir true e) : At t o [] t.fs.cwd
  | sub {loc : List Name} {d i : Ino} {e : Name → Option Ino} {n : Name} (up : At t o loc d)
      (hread : t.readable d) (hdir : t.fs.node d = .dir true e) (hsel : o.select n)
      (hproper : Proper n) (hn : e n = some i) (hi : t.fs.isDir i) :
      At t o (loc ++ [n]) i

/-- `./a/b` for the entry `b` of the entry `a` -/
def pathOf (loc : List Name) : Path := DOT ++ loc.flatMap (SLASH :: ·)

theorem pathOf_append (loc : List Name) (n : Name) :
    pathOf (loc ++ [n]) = pathOf loc ++ SLASH :: n := by
  rw [pathOf, List.flatMap_append, List.flatMap_singleton, ← List.append_assoc, pathOf]

theorem At.isDir (h : At t o loc d) : t.fs.isDir d := by
  cases h with
  | here hdir => rw [FS.isDir, hdir]
  | sub _ _ _ _ _ _ hi => exact hi

theorem exists_of_isDir {fs : FS} (h : fs.isDir d) : ∃ s e, fs.node d = .dir s e := by
  unfold FS.isDir at h
  split at h
  · next s e hnode => exact ⟨s, e, hnode⟩
  · cases h

theorem At.name (h : At t o loc d) : ∀ n ∈ loc, n ≠ [] ∧ n.length ≤ 255 ∧ SLASH ∉ n := by
  induction h with
  | here => exact fun n hn => by cases hn
  | sub _ _ hdir _ _ hn _ ih =>
    intro n' hn'
    rcases List.mem_append.mp hn' with hold | hlast
    · exact ih n' hold
    · obtain rfl := List.mem_singleton.mp hlast
      exact t.name _ _ _ _ hdir (by rw [hn]; rfl)

/-- A directory has one place. -/
theorem At.place (h : At t o loc d) : t.place d = t.place t.fs.cwd ++ loc := by
  induction h with
  | here => rw [List.append_nil]
  | sub _ _ hdir _ hproper hn hi ih =>
    rw [t.child _ _ _ _ _ hdir hn hi hproper, ih, List.append_assoc]

/-- The steps of a longer path. -/
theorem At.step {loc'' : List Name} (h : At t o loc'' i) {ext : List Name}
    (hloc : loc'' = loc ++ n :: ext) :
    ∃ d j e, At t o loc d ∧ t.readable d ∧ t.fs.node d = .dir true e ∧ o.select n ∧ Proper n ∧
      e n = some j ∧ t.fs.isDir j := by
  induction h generalizing ext with
  | here => exact absurd hloc.symm (by simp)
  | @sub loc₁ d₁ i₁ e₁ n₁ up hread hdir hsel hproper hn hi ih =>
    rcases List.eq_nil_or_concat ext with rfl | ⟨ext', n', rfl⟩
    · obtain ⟨rfl, hlast⟩ := List.append_inj' hloc rfl
      cases hlast
      exact ⟨_, _, _, up, hread, hdir, hsel, hproper, hn, hi⟩
    · rw [List.concat_eq_append, ← List.cons_append, ← List.append_assoc] at hloc
      exact ih (List.append_inj' hloc rfl).1

theorem At.unique (h : At t o loc d) (h' : At t o loc' d) : loc = loc' :=
  List.append_cancel_left (h.place.symm.trans h'.place)

/-! ### Resolution -/

/-- Names that lead from one directory to another, with no link on the way. -/
inductive Chain (look : Ino → Look) : Ino → List Name → Ino → Prop where
  | nil {d : Ino} : Chain look d [] d
  | cons {d i d' : Ino} {e : Name → Option Ino} {n : Name} {ns : List Name}
      (hd : look d = .dir true e) (hn : Usable true n) (hi : e n = some i)
      (hlink : ∀ t, look i ≠ .link t) (rest : Chain look i ns d') : Chain look d (n :: ns) d'

theorem Chain.snoc {look : Ino → Look} {a : Ino} {ns : List Name} (h : Chain look a ns d)
    (hd : look d = .dir true e) (hn : Usable true n) (hi : e n = some i)
    (hlink : ∀ t, look i ≠ .link t) : Chain look a (ns ++ [n]) i := by
  induction h with
  | nil => exact .cons hd hn hi hlink .nil
  | cons hd' hn' hi' hlink' _ ih => exact .cons hd' hn' hi' hlink' (ih hd)

/-- A walk goes along a chain. -/
theorem Chain.walk {look : Ino → Look} {a : Ino} {ns : List Name} (h : Chain look a ns d)
    (root : Ino) (follow : Bool) (jump : Ino → List Name → Res) (entry : Option (Ino × Name))
    (cs : List Name) :
    ∃ entry', FileSystem.walk look root follow jump a entry (ns ++ cs) =
      FileSystem.walk look root follow jump d entry' cs := by
  induction h generalizing entry with
  | nil => exact ⟨entry, rfl⟩
  | cons hd hn hi hlink _ ih =>
    obtain ⟨entry', h⟩ := ih (some (_, _))
    refine ⟨entry', ?_⟩
    rw [List.cons_append, walk_some hd hn hi hlink, h]

theorem usable_name (hdir : t.fs.node d = .dir s e) (hn : (e n).isSome) : Usable true n := by
  obtain ⟨hnil, hle, -⟩ := t.name _ _ _ _ hdir hn
  exact ⟨rfl, hnil, hle⟩

theorem not_link_of_dir (h : t.fs.isDir i) (target : Path) : t.fs.look i ≠ .link target := by
  obtain ⟨s, e, hnode⟩ := exists_of_isDir h
  rw [FS.look_of_dir hnode]
  exact fun h => by cases h

theorem At.chain (h : At t o loc d) : Chain t.fs.look t.fs.cwd (DOT :: loc) d := by
  induction h with
  | here hdir =>
    have hdot := t.dot _ _ _ hdir
    exact .cons (FS.look_of_dir hdir) (usable_name hdir (by rw [hdot]; rfl)) hdot
      (not_link_of_dir (by rw [FS.isDir, hdir])) .nil
  | sub _ _ hdir _ _ hn hi ih =>
    exact ih.snoc (FS.look_of_dir hdir) (usable_name hdir (by rw [hn]; rfl)) hn (not_link_of_dir hi)

theorem components_append (path : Path) (hn : SLASH ∉ n) :
    components (path ++ SLASH :: n) = components path ++ [n] := by
  rw [components, List.splitOn_append_cons_self, List.splitOn_eq_singleton hn, components]

theorem components_pathOf (h : ∀ n ∈ loc, SLASH ∉ n) : components (pathOf loc) = DOT :: loc := by
  induction loc using List.reverseRecOn with
  | nil => decide
  | append_singleton loc n ih =>
    rw [pathOf_append, components_append _ (h n (List.mem_append_right _ (List.mem_singleton_self n))),
      ih fun n' hn' => h n' (List.mem_append_left _ hn'), List.cons_append]

/-- The path of a directory, and more behind it, from the directory on. -/
theorem At.resolve (h : At t o loc d) (follow : Bool) (rest : List Name) (hpath : path.head? = some 0x2e)
    (hfits : path.length < PATH_MAX) (hcomp : components path = DOT :: loc ++ rest) :
    ∃ entry, t.fs.resolve follow path =
      FileSystem.walk t.fs.look t.fs.root follow
        (follow_links t.fs.look t.fs.root follow MAXSYMLINKS) d entry rest := by
  have hnil : path ≠ [] := by
    rintro rfl
    cases hpath
  have hrel : ¬ path.head? = some SLASH := by
    rw [hpath]
    decide
  obtain ⟨entry, hwalk⟩ := h.chain.walk t.fs.root follow
    (follow_links t.fs.look t.fs.root follow MAXSYMLINKS) none rest
  refine ⟨entry, ?_⟩
  rw [FS.resolve, if_neg hnil, if_neg (not_le.mpr hfits), if_neg hrel, hcomp]
  exact hwalk

theorem head_pathOf (loc : List Name) (rest : Path) : (pathOf loc ++ rest).head? = some 0x2e := rfl

theorem At.components (h : At t o loc d) : components (pathOf loc) = DOT :: loc :=
  components_pathOf fun n hn => (h.name n hn).2.2

/-- The path of a directory leads to it. -/
theorem At.resolve_path (h : At t o loc d) (follow : Bool)
    (hfits : (pathOf loc).length < PATH_MAX) :
    ∃ entry, t.fs.resolve follow (pathOf loc) = .found entry d := by
  obtain ⟨entry, hres⟩ := h.resolve follow [] (by
    have hhead := head_pathOf loc []
    rwa [List.append_nil] at hhead) hfits (by rw [h.components, List.append_nil])
  exact ⟨entry, hres⟩

/-- The path of an entry leads to the entry. -/
theorem At.resolve_entry (h : At t o loc d) (hdir : t.fs.node d = .dir true e) (hn : e n = some i)
    (hfits : (pathOf loc ++ SLASH :: n).length < PATH_MAX) :
    t.fs.resolve false (pathOf loc ++ SLASH :: n) = .found (some (d, n)) i := by
  obtain ⟨hnil, hle, hslash⟩ := t.name _ _ _ _ hdir (by rw [hn]; rfl)
  obtain ⟨entry, hres⟩ := h.resolve false [n] (head_pathOf loc _) hfits
    (by rw [components_append _ hslash, h.components])
  rw [hres]
  by_cases hlink : ∃ target, t.fs.look i = .link target
  · obtain ⟨target, htarget⟩ := hlink
    rw [walk_link (FS.look_of_dir hdir) ⟨rfl, hnil, hle⟩ hn htarget, if_pos ⟨rfl, rfl⟩]
  · rw [walk_some (FS.look_of_dir hdir) ⟨rfl, hnil, hle⟩ hn fun target ht => hlink ⟨target, ht⟩]
    rfl

/-- A name without a slash behind the path of a directory leads to an entry, or
    to the directory itself if it is empty. -/
theorem At.resolve_part (h : At t o loc d) (hslash : SLASH ∉ n)
    (hfits : (pathOf loc ++ SLASH :: n).length < PATH_MAX) {l : Option (Ino × Name)}
    (hfound : t.fs.resolve false (pathOf loc ++ SLASH :: n) = .found l i) :
    n = [] ∧ i = d ∨ ∃ e, t.fs.node d = .dir true e ∧ e n = some i := by
  obtain ⟨entry, hres⟩ := h.resolve false [n] (head_pathOf loc _) hfits
    (by rw [components_append _ hslash, h.components])
  have hwalked := walk_cons t.fs.look t.fs.root false
    (follow_links t.fs.look t.fs.root false MAXSYMLINKS) d entry n []
  rw [← hres, hfound] at hwalked
  generalize hr : Res.found l i = r at hwalked
  cases hwalked with
  | error => cases hr
  | stay _ hnil =>
    cases hr
    exact .inl ⟨hnil, rfl⟩
  | missing => cases hr
  | last hd hn hi =>
    cases hr
    obtain rfl := hn.1
    exact .inr ⟨_, FS.node_of_look_dir hd, hi⟩
  | jump _ _ _ _ hcs => exact absurd ⟨rfl, rfl⟩ hcs
  | next hd hn hi =>
    cases hr
    obtain rfl := hn.1
    exact .inr ⟨_, FS.node_of_look_dir hd, hi⟩

/-- Different directories have different paths. -/
theorem pathOf_inj (h : At t o loc d) (h' : At t o loc' d') (hfits : (pathOf loc).length < PATH_MAX)
    (heq : pathOf loc = pathOf loc') : loc = loc' := by
  obtain ⟨l, hres⟩ := h.resolve_path true hfits
  obtain ⟨l', hres'⟩ := h'.resolve_path true (heq ▸ hfits)
  rw [heq, hres'] at hres
  cases hres
  exact h.unique h'

theorem join_cut_of_fits (hfits : (path ++ SLASH :: n).length < PATH_MAX) :
    join_cut path n = path ++ SLASH :: n :=
  List.take_of_length_le (Nat.le_sub_one_of_lt hfits)

/-- A cut path does not lead to the directory it was made for. -/
theorem At.cut_not_child (h : At t o loc d) (hP : (pathOf loc).length < PATH_MAX)
    (hdir : t.fs.node d = .dir s e) (hn : e n = some i) (hi : t.fs.isDir i) (hproper : Proper n)
    (hlong : PATH_MAX ≤ (pathOf loc ++ SLASH :: n).length) {l : Option (Ino × Name)} :
    t.fs.resolve false (join_cut (pathOf loc) n) ≠ .found l i := by
  intro hfound
  have hplace := t.child _ _ _ _ _ hdir hn hi hproper
  have hid : i ≠ d := by
    rintro rfl
    have hlength := congrArg List.length hplace
    rw [List.length_append, List.length_singleton] at hlength
    omega
  rw [List.length_append, List.length_cons] at hlong
  rcases Nat.lt_or_ge (pathOf loc).length (PATH_MAX - 1) with hlt | hge
  · -- the slash has room, and a part of the name
    obtain ⟨part, hpart, hslash, hfits, hshort⟩ : ∃ part, join_cut (pathOf loc) n =
        pathOf loc ++ SLASH :: part ∧ SLASH ∉ part ∧
        (pathOf loc ++ SLASH :: part).length < PATH_MAX ∧ part.length < n.length := by
      have hroom : PATH_MAX - 1 - (pathOf loc).length =
          (PATH_MAX - 1 - (pathOf loc).length - 1) + 1 := by omega
      refine ⟨n.take (PATH_MAX - 1 - (pathOf loc).length - 1), ?_, ?_, ?_, ?_⟩
      · rw [join_cut, List.take_append, List.take_of_length_le hlt.le, hroom, List.take_succ_cons,
          ← hroom]
      · exact fun hmem => (t.name _ _ _ _ hdir (by rw [hn]; rfl)).2.2 (List.mem_of_mem_take hmem)
      · rw [List.length_append, List.length_cons, List.length_take]
        omega
      · rw [List.length_take]
        omega
    rw [hpart] at hfound
    rcases h.resolve_part hslash hfits hfound with ⟨-, hsame⟩ | ⟨e', hdir', hpart'⟩
    · exact hid hsame
    rw [hdir] at hdir'
    cases hdir'
    by_cases hdot : part = DOT
    · rw [hdot, t.dot _ _ _ hdir] at hpart'
      cases hpart'
      exact hid rfl
    by_cases hdotdot : part = DOTDOT
    · obtain ⟨up, hup, hplaceup⟩ := t.dotdot _ _ _ hdir
      rw [hdotdot, hup] at hpart'
      cases hpart'
      rw [hplaceup] at hplace
      have hlength := congrArg List.length hplace
      rw [List.length_append, List.length_singleton, List.length_dropLast] at hlength
      omega
    · have hplace' := t.child _ _ _ _ _ hdir hpart' hi ⟨hdot, hdotdot⟩
      rw [hplace] at hplace'
      have hname := List.append_cancel_left hplace'
      cases hname
      exact lt_irrefl _ hshort
  · -- the whole name is cut off
    have hcut : join_cut (pathOf loc) n = pathOf loc := by
      rw [join_cut, List.take_append_of_le_length hge, List.take_of_length_le (by omega)]
    rw [hcut] at hfound
    obtain ⟨l', hres⟩ := h.resolve_path false hP
    rw [hres] at hfound
    cases hfound
    exact hid rfl

end Myls
