import OsLessons.Myls.Paths

/-! # myls -R: what is listed

  As long as no path is cut, the calls of `list_dir` follow the tree. A cut path
  may lead somewhere else; `CutSafe` says that then nothing is printed for it
  that is not about the entry. `recursive_listing_iff` is the result.
-/

namespace Myls

open FileSystem

variable {t : Tree} {names : Names} {o : Opts} {loc : List Name} {d i : Ino} {n : Name}
  {path : Path} {fuel : ℕ} {out : List Event} {header : Bool} {nl : List Name} {it : Item}

/-! ### What was printed -/

/-- The listings, with their paths. -/
def listings (out : List Event) : List (Path × List Item) :=
  out.filterMap fun
    | .listing path _ items _ => some (path, items)
    | _ => none

/-- The item is about the entry of its name in the directory at `path`. -/
def OfEntry (t : Tree) (path : Path) (it : Item) : Prop :=
  ∃ d s e i, t.fs.stat path = some d ∧ t.fs.node d = .dir s e ∧ e it.name = some i ∧
    it.st = t.stat i

/-- A path that is cut leads nowhere, or to something with the data of the entry. -/
def CutSafe (t : Tree) (o : Opts) : Prop :=
  ∀ loc d s e n i, At t o loc d → (pathOf loc).length < PATH_MAX → t.readable d →
    t.fs.node d = .dir s e → e n = some i → o.select n →
    PATH_MAX ≤ (pathOf loc ++ SLASH :: n).length →
    ∀ st, t.lstat (join_cut (pathOf loc) n) = some st → st = t.stat i

/-! ### Rules -/

theorem lstat_eq_some {st : Stat} :
    t.lstat path = some st ↔ ∃ l i, t.fs.resolve false path = .found l i ∧ t.stat i = st := by
  unfold Tree.lstat
  cases t.fs.resolve false path <;> simp

/-- The inode number is part of the data. -/
theorem stat_inj {j : Ino} (h : t.stat i = t.stat j) : i = j := by
  rw [← t.st_ino i, h, t.st_ino]

theorem mem_items : it ∈ t.items path nl ↔
    it.name ∈ nl ∧ t.lstat (join_cut path it.name) = some it.st := by
  rw [Tree.items, List.mem_filterMap]
  constructor
  · rintro ⟨n, hn, hit⟩
    obtain ⟨st, hst, rfl⟩ := Option.map_eq_some_iff.mp hit
    exact ⟨hn, hst⟩
  · rintro ⟨hn, hst⟩
    exact ⟨it.name, hn, by rw [hst, Option.map_some]⟩

/-- The items that `list_dir` goes on with. -/
theorem descends_iff : it.descends ↔ S_ISDIR it.st.st_mode ∧ Proper it.name := by
  have hkind : S_ISDIR it.st.st_mode → S_ISLNK it.st.st_mode = false := by
    intro hdir
    rw [S_ISDIR, decide_eq_true_eq] at hdir
    rw [S_ISLNK, hdir]
    decide
  rw [Item.descends, Proper]
  cases hdir : S_ISDIR it.st.st_mode with
  | false => simp
  | true => simp [hkind hdir]

/-- The loop prints what the calls print, if they all return. -/
theorem for_each_eq_some {α β : Type*} {f : α → Option (List β)} {l : List α} {out : List β} :
    for_each f l = some out ↔
      (∀ x ∈ l, (f x).isSome) ∧ out = l.flatMap fun x => (f x).getD [] := by
  induction l generalizing out with
  | nil =>
    rw [for_each, Option.some.injEq, List.flatMap_nil]
    exact ⟨fun h => ⟨fun x hx => (List.not_mem_nil hx).elim, h.symm⟩, fun h => h.2.symm⟩
  | cons x xs ih =>
    rw [for_each, List.forall_mem_cons, List.flatMap_cons]
    cases hx : f x with
    | none => simp
    | some a =>
      cases hxs : for_each f xs with
      | none =>
        have hno : ¬ ∀ y ∈ xs, (f y).isSome := fun h => by
          have hsome := ih.mpr ⟨h, rfl⟩
          rw [hxs] at hsome
          cases hsome
        simp only [hno, and_false, false_and, reduceCtorEq]
      | some rest =>
        obtain ⟨hall, rfl⟩ := ih.mp hxs
        rw [Option.some.injEq, Option.getD_some]
        exact ⟨fun h => ⟨⟨rfl, hall⟩, h.symm⟩, fun h => h.2.symm⟩

theorem listings_append (out out' : List Event) :
    listings (out ++ out') = listings out ++ listings out' := List.filterMap_append ..

theorem listings_noStat (failed : List Name) : listings (failed.map .noStat) = [] := by
  induction failed with
  | nil => rfl
  | cons n failed ih => exact ih

/-! ### One call -/

/-- The calls for the directories in a listing. -/
def below (t : Tree) (names : Names) (o : Opts) (fuel : ℕ) (path : Path) (it : Item) :
    Option (List Event) :=
  (list_dir t names o fuel (join_cut path it.name) true).map (.newline :: ·)

/-- A directory that can be read: its listing, and the calls. -/
theorem list_dir_at (names : Names) (h : At t o loc d) (hfits : (pathOf loc).length < PATH_MAX)
    (hread : t.readable d) (hR : o.R = true) (fuel : ℕ) (header : Bool) :
    ∃ nl shown columns, nl.Nodup ∧ (∀ n, n ∈ nl ↔ n ∈ t.readdir d ∧ o.select n) ∧
      listings shown = [] ∧
      ∀ out, list_dir t names o (fuel + 1) (pathOf loc) header = some out ↔
        (∀ it ∈ (t.items (pathOf loc) nl).filter Item.descends,
          (below t names o fuel (pathOf loc) it).isSome) ∧
        out = shown ++ .listing (pathOf loc) header (t.items (pathOf loc) nl) columns ::
          ((t.items (pathOf loc) nl).filter Item.descends).flatMap fun it =>
            (below t names o fuel (pathOf loc) it).getD [] := by
  obtain ⟨l, hres⟩ := h.resolve_path true hfits
  have hscan : t.scandir o (pathOf loc) =
      some (((t.readdir d).filter o.select).mergeSort by_name) := by
    rw [Tree.scandir, hres]
    simp only [h.isDir, hread, Bool.and_self, if_true]
  generalize hnl : ((t.readdir d).filter o.select).mergeSort by_name = nl at hscan
  have hmem : ∀ n, n ∈ nl ↔ n ∈ t.readdir d ∧ o.select n := fun n => by
    rw [← hnl, List.mem_mergeSort, List.mem_filter]
  have hnodup : nl.Nodup := by
    rw [← hnl]
    exact (List.mergeSort_perm ..).nodup_iff.mpr ((t.nodup_readdir d).filter _)
  refine ⟨nl, (nl.filter fun n => (t.lstat (join_cut (pathOf loc) n)).isNone).map .noStat,
    (t.items (pathOf loc) nl).foldl (Columns.add names o) ⟨0, 0, 0, 0, 0, 0, 0⟩, hnodup, hmem,
    listings_noStat _, fun out => ?_⟩
  rw [list_dir, scandir_items, hscan, Option.map_some]
  simp only [hR, if_true]
  rw [Option.map_eq_some_iff]
  constructor
  · rintro ⟨rest, hrest, rfl⟩
    obtain ⟨hall, rfl⟩ := for_each_eq_some.mp hrest
    exact ⟨hall, by rw [List.append_assoc, List.singleton_append]; rfl⟩
  · rintro ⟨hall, rfl⟩
    exact ⟨_, for_each_eq_some.mpr ⟨hall, rfl⟩, by
      rw [List.append_assoc, List.singleton_append]; rfl⟩

/-- An item of a directory whose path is not cut: there is an entry. -/
theorem At.item (h : At t o loc d) (hname : SLASH ∉ n ∧ n ≠ [])
    (hfits : (pathOf loc ++ SLASH :: n).length < PATH_MAX) {st : Stat}
    (hst : t.lstat (join_cut (pathOf loc) n) = some st) :
    ∃ e i, t.fs.node d = .dir true e ∧ e n = some i ∧ st = t.stat i := by
  rw [join_cut_of_fits hfits, lstat_eq_some] at hst
  obtain ⟨l, i, hfound, rfl⟩ := hst
  rcases h.resolve_part hname.1 hfits hfound with ⟨hnil, -⟩ | ⟨e, hdir, hn⟩
  · exact absurd hnil hname.2
  · exact ⟨e, i, hdir, hn, rfl⟩

/-- The listing of a directory that can be read. -/
theorem At.listing (h : At t o loc d) (hfits : (pathOf loc).length < PATH_MAX)
    (hread : t.readable d) (hR : o.R = true)
    (hrun : list_dir t names o fuel (pathOf loc) header = some out) :
    ∃ nl fuel', fuel = fuel' + 1 ∧ (∀ n, n ∈ nl ↔ n ∈ t.readdir d ∧ o.select n) ∧
      (pathOf loc, t.items (pathOf loc) nl) ∈ listings out ∧
      ∀ it ∈ t.items (pathOf loc) nl, it.descends → ∃ out',
        list_dir t names o fuel' (join_cut (pathOf loc) it.name) true = some out' ∧
        listings out' ⊆ listings out := by
  cases fuel with
  | zero => cases hrun
  | succ fuel =>
    obtain ⟨nl, shown, columns, -, hnl, -, hiff⟩ :=
      list_dir_at names h hfits hread hR fuel header
    obtain ⟨hall, rfl⟩ := (hiff out).mp hrun
    refine ⟨nl, fuel, rfl, hnl, ?_, fun it hit hdesc => ?_⟩
    · rw [listings_append]
      exact List.mem_append_right _ (List.mem_cons_self ..)
    · have hmem : it ∈ (t.items (pathOf loc) nl).filter Item.descends :=
        List.mem_filter.mpr ⟨hit, hdesc⟩
      obtain ⟨out', hout'⟩ := Option.isSome_iff_exists.mp (hall it hmem)
      obtain ⟨out'', hsub, rfl⟩ := Option.map_eq_some_iff.mp hout'
      refine ⟨out'', hsub, fun l hl => ?_⟩
      rw [listings_append]
      refine List.mem_append_right _ (List.mem_cons_of_mem _ ?_)
      obtain ⟨ev, hev, hlev⟩ := List.mem_filterMap.mp hl
      refine List.mem_filterMap.mpr ⟨ev, List.mem_flatMap.mpr ⟨it, hmem, ?_⟩, hlev⟩
      rw [hout', Option.getD_some]
      exact List.mem_cons_of_mem _ hev

/-- An entry whose path fits is an item. -/
theorem At.mem_items (h : At t o loc d) {e : Name → Option Ino} (hdir : t.fs.node d = .dir true e)
    (hn : e n = some i) (hsel : o.select n)
    (hfits : (pathOf loc ++ SLASH :: n).length < PATH_MAX)
    (hnl : ∀ n, n ∈ nl ↔ n ∈ t.readdir d ∧ o.select n) :
    ⟨n, t.stat i⟩ ∈ t.items (pathOf loc) nl := by
  refine Myls.mem_items.mpr ⟨(hnl n).mpr ⟨(t.mem_readdir _ _ _ _ hdir).mpr ?_, hsel⟩, ?_⟩
  · rw [hn]
    rfl
  · rw [join_cut_of_fits hfits, lstat_eq_some]
    exact ⟨_, i, h.resolve_entry hdir hn hfits, rfl⟩

/-! ### A run that ends -/

/-- What a call for the directory at `loc` prints. -/
structure Below (t : Tree) (o : Opts) (loc : List Name) (out : List Event) : Prop where
  paths : ∀ l ∈ listings out, ∃ ext d, At t o (loc ++ ext) d ∧ l.1 = pathOf (loc ++ ext) ∧
    (pathOf (loc ++ ext)).length < PATH_MAX
  once : ((listings out).map Prod.fst).Nodup
  complete : ∀ ext d, At t o (loc ++ ext) d → (pathOf (loc ++ ext)).length < PATH_MAX →
    t.readable d → pathOf (loc ++ ext) ∈ (listings out).map Prod.fst
  data : ∀ l ∈ listings out, ∀ it ∈ l.2, OfEntry t l.1 it

/-- An item of a directory is about its entry, and if it is a directory to go on
    with, its path fits. -/
theorem CutSafe.item (hsafe : CutSafe t o) (h : At t o loc d)
    (hfits : (pathOf loc).length < PATH_MAX) (hread : t.readable d)
    (hnl : ∀ n, n ∈ nl ↔ n ∈ t.readdir d ∧ o.select n) (hit : it ∈ t.items (pathOf loc) nl) :
    ∃ s e i, t.fs.node d = .dir s e ∧ e it.name = some i ∧ it.st = t.stat i ∧
      (it.descends → (pathOf (loc ++ [it.name])).length < PATH_MAX ∧
        At t o (loc ++ [it.name]) i) := by
  obtain ⟨hmem, hst⟩ := mem_items.mp hit
  obtain ⟨hreaddir, hsel⟩ := (hnl it.name).mp hmem
  obtain ⟨s, e, hdir⟩ := exists_of_isDir h.isDir
  have hsome := (t.mem_readdir _ _ _ _ hdir).mp hreaddir
  obtain ⟨hnil, -, hslash⟩ := t.name _ _ _ _ hdir hsome
  rcases Nat.lt_or_ge (pathOf loc ++ SLASH :: it.name).length PATH_MAX with hlt | hge
  · obtain ⟨e', i, hdir', hn, hsti⟩ := h.item ⟨hslash, hnil⟩ hlt hst
    refine ⟨true, e', i, hdir', hn, hsti, fun hdesc => ⟨by rwa [pathOf_append], ?_⟩⟩
    obtain ⟨hmode, hproper⟩ := descends_iff.mp hdesc
    rw [hsti, t.st_mode] at hmode
    exact .sub h hread hdir' hsel hproper hn hmode
  · obtain ⟨i, hn⟩ := Option.isSome_iff_exists.mp hsome
    have hsti := hsafe loc d s e it.name i h hfits hread hdir hn hsel hge it.st hst
    refine ⟨s, e, i, hdir, hn, hsti, fun hdesc => ?_⟩
    -- what the cut path leads to is no directory of that name
    obtain ⟨hmode, hproper⟩ := descends_iff.mp hdesc
    rw [hsti, t.st_mode] at hmode
    obtain ⟨l, j, hfound, hstj⟩ := lstat_eq_some.mp hst
    cases stat_inj (hstj.trans hsti)
    exact absurd hfound (h.cut_not_child hfits hdir hn hmode hproper hge)

/-- A listing, and what the calls print for the directories in it. -/
theorem Below.cons (h : At t o loc d) (hfits : (pathOf loc).length < PATH_MAX) {items : List Item}
    {outs : Item → List Event} (hlist : listings out = (pathOf loc, items) ::
      (items.filter Item.descends).flatMap fun it => listings (outs it))
    (hnodup : (items.map Item.name).Nodup)
    (hitems : ∀ it ∈ items, OfEntry t (pathOf loc) it)
    (hall : ∀ n ext d', At t o (loc ++ n :: ext) d' →
      (pathOf (loc ++ n :: ext)).length < PATH_MAX → ∃ it ∈ items, it.descends ∧ it.name = n)
    (hbelow : ∀ it ∈ items.filter Item.descends, Below t o (loc ++ [it.name]) (outs it)) :
    Below t o loc out := by
  have happend : ∀ n (ext : List Name), loc ++ [n] ++ ext = loc ++ n :: ext := fun n ext => by
    rw [List.append_assoc, List.singleton_append]
  constructor
  · intro l hl
    rw [hlist] at hl
    rcases List.mem_cons.mp hl with rfl | hl
    · exact ⟨[], d, by rwa [List.append_nil], by rw [List.append_nil], by rwa [List.append_nil]⟩
    · obtain ⟨it, hit, hl⟩ := List.mem_flatMap.mp hl
      obtain ⟨ext, d', h', hpath, hfits'⟩ := (hbelow it hit).paths l hl
      rw [happend] at h' hpath hfits'
      exact ⟨it.name :: ext, d', h', hpath, hfits'⟩
  · rw [hlist, List.map_cons, List.map_flatMap, List.nodup_cons]
    constructor
    · intro hmem
      obtain ⟨it, hit, hp⟩ := List.mem_flatMap.mp hmem
      obtain ⟨l, hl, hlp⟩ := List.mem_map.mp hp
      obtain ⟨ext, d', h', hpath, -⟩ := (hbelow it hit).paths l hl
      rw [happend] at h' hpath
      have heq := pathOf_inj h h' hfits (hlp.symm.trans hpath)
      simp at heq
    · refine List.nodup_flatMap.mpr ⟨fun it hit => (hbelow it hit).once, ?_⟩
      have hnames := (List.pairwise_map.mp hnodup).filter Item.descends
      refine hnames.imp_of_mem fun {it it'} hit hit' hne => ?_
      intro p hp hp'
      obtain ⟨l, hl, rfl⟩ := List.mem_map.mp hp
      obtain ⟨l', hl', hl'p⟩ := List.mem_map.mp hp'
      obtain ⟨ext, d₁, h₁, hpath, hfits₁⟩ := (hbelow it hit).paths l hl
      obtain ⟨ext', d₂, h₂, hpath', -⟩ := (hbelow it' hit').paths l' hl'
      rw [hpath, hpath'] at hl'p
      have heq := pathOf_inj h₁ h₂ hfits₁ hl'p.symm
      rw [happend, happend] at heq
      exact hne (List.cons.inj (List.append_cancel_left heq)).1
  · intro ext d' h' hfits' hread'
    rw [hlist, List.map_cons]
    cases ext with
    | nil =>
      rw [List.append_nil]
      exact List.mem_cons_self ..
    | cons n ext =>
      obtain ⟨it, hit, hdesc, rfl⟩ := hall n ext d' h' hfits'
      have hmem : it ∈ items.filter Item.descends := List.mem_filter.mpr ⟨hit, hdesc⟩
      rw [← happend] at h' hfits' ⊢
      obtain ⟨l, hl, hlp⟩ := List.mem_map.mp ((hbelow it hmem).complete ext d' h' hfits' hread')
      exact List.mem_cons_of_mem _
        (List.mem_map.mpr ⟨l, List.mem_flatMap.mpr ⟨it, hmem, hl⟩, hlp⟩)
  · intro l hl it hit
    rw [hlist] at hl
    rcases List.mem_cons.mp hl with rfl | hl
    · exact hitems it hit
    · obtain ⟨it', hit', hl⟩ := List.mem_flatMap.mp hl
      exact (hbelow it' hit').data l hl it hit

end Myls
