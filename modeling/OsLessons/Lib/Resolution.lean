import OsLessons.Lib.FileSystem

/-! # What names lead to after a change

  Rules for a file system in which one entry changes, for all paths at once:
  with symbolic links a path can pass any entry, any number of times.

  - `walk_changed`: what is related at the entry is related everywhere.
  - `resolve_put`: the entry leads to a new file now.
  - `resolve_gone`: the entry is gone.
-/

namespace FileSystem

section walk
variable {look look' : Ino → Look} {root cur d y i : Ino} {c n : Name} {cs : List Name}
  {e entries : Name → Option Ino} {s search : Bool} {follow : Bool}
  {jump jump' : Ino → List Name → Res} {entry : Option (Ino × Name)}

/-! ### One component -/

/-- A component that can be looked up: the directory may be searched, and the
    name is not too long. -/
def Usable (s : Bool) (c : Name) : Prop := s = true ∧ c ≠ [] ∧ c.length ≤ 255

theorem walk_not_dir (h : ∀ s e, look cur ≠ .dir s e) :
    walk look root follow jump cur entry (c :: cs) = .error .ENOTDIR := by
  cases hlook : look cur with
  | dir s e => exact absurd hlook (h s e)
  | link _ => simp only [walk, hlook]
  | leaf => simp only [walk, hlook]

theorem walk_empty (h : look cur = .dir true e) :
    walk look root follow jump cur entry ([] :: cs) =
      walk look root follow jump cur none cs := by
  simp [walk, h]

theorem walk_unusable (h : look cur = .dir s e) (hc : ¬ Usable s c) (hnil : ¬ (s = true ∧ c = [])) :
    ∃ err, walk look root follow jump cur entry (c :: cs) = .error err := by
  by_cases hs : s = false
  · exact ⟨.EACCES, by simp [walk, h, hs]⟩
  · have hs' : s = true := by simpa using hs
    have hc' : c ≠ [] := fun heq => hnil ⟨hs', heq⟩
    have hlong : 255 < c.length := by
      by_contra hle
      exact hc ⟨hs', hc', not_lt.mp hle⟩
    exact ⟨.ENAMETOOLONG, by simp [walk, h, hs', hc', hlong]⟩

theorem walk_none (h : look cur = .dir s e) (hc : Usable s c) (hnone : e c = none) :
    walk look root follow jump cur entry (c :: cs) =
      if cs = [] then .missing cur c else .error .ENOENT := by
  obtain ⟨rfl, hnil, hle⟩ := hc
  simp [walk, h, hnil, not_lt.mpr hle, hnone]

theorem walk_link {target : Path} (h : look cur = .dir s e) (hc : Usable s c)
    (hsome : e c = some i) (hi : look i = .link target) :
    walk look root follow jump cur entry (c :: cs) =
      if cs = [] ∧ follow = false then .found (some (cur, c)) i
      else if target = [] then .error .ENOENT
      else jump (if target.head? = some SLASH then root else cur) (components target ++ cs) := by
  obtain ⟨rfl, hnil, hle⟩ := hc
  simp [walk, h, hnil, not_lt.mpr hle, hsome, hi]

theorem walk_some (h : look cur = .dir s e) (hc : Usable s c) (hsome : e c = some i)
    (hi : ∀ t, look i ≠ .link t) :
    walk look root follow jump cur entry (c :: cs) =
      walk look root follow jump i (some (cur, c)) cs := by
  obtain ⟨rfl, hnil, hle⟩ := hc
  cases hlook : look i with
  | link t => exact absurd hlook (hi t)
  | dir _ _ => simp [walk, h, hnil, not_lt.mpr hle, hsome, hlook]
  | leaf => simp [walk, h, hnil, not_lt.mpr hle, hsome, hlook]

/-- Nothing is found behind a file. -/
theorem walk_leaf (h : look i = .leaf) :
    walk look root follow jump i entry cs =
      if cs = [] then .found entry i else .error .ENOTDIR := by
  cases cs with
  | nil => rfl
  | cons c cs => exact walk_not_dir fun s e heq => by rw [h] at heq; cases heq

/-- What a walk does with its first component. -/
inductive Walked (look : Ino → Look) (root : Ino) (follow : Bool) (jump : Ino → List Name → Res)
    (cur : Ino) (c : Name) (cs : List Name) : Res → Prop where
  | error (err : Errno) : Walked look root follow jump cur c cs (.error err)
  | stay {e : Name → Option Ino} (hd : look cur = .dir true e) (hc : c = []) :
      Walked look root follow jump cur c cs (walk look root follow jump cur none cs)
  | missing {s : Bool} {e : Name → Option Ino} (hd : look cur = .dir s e) (hc : Usable s c)
      (hn : e c = none) (hcs : cs = []) : Walked look root follow jump cur c cs (.missing cur c)
  | last {s : Bool} {e : Name → Option Ino} {i : Ino} {t : Path} (hd : look cur = .dir s e)
      (hc : Usable s c) (hn : e c = some i) (hi : look i = .link t)
      (hcs : cs = [] ∧ follow = false) :
      Walked look root follow jump cur c cs (.found (some (cur, c)) i)
  | jump {s : Bool} {e : Name → Option Ino} {i : Ino} {t : Path} (hd : look cur = .dir s e)
      (hc : Usable s c) (hn : e c = some i) (hi : look i = .link t)
      (hcs : ¬ (cs = [] ∧ follow = false)) :
      Walked look root follow jump cur c cs
        (jump (if t.head? = some SLASH then root else cur) (components t ++ cs))
  | next {s : Bool} {e : Name → Option Ino} {i : Ino} (hd : look cur = .dir s e)
      (hc : Usable s c) (hn : e c = some i) (hi : ∀ t, look i ≠ .link t) :
      Walked look root follow jump cur c cs (walk look root follow jump i (some (cur, c)) cs)

theorem walk_cons (look : Ino → Look) (root : Ino) (follow : Bool)
    (jump : Ino → List Name → Res) (cur : Ino) (entry : Option (Ino × Name)) (c : Name)
    (cs : List Name) : Walked look root follow jump cur c cs
      (walk look root follow jump cur entry (c :: cs)) := by
  by_cases hdir : ∃ s e, look cur = .dir s e
  swap
  · rw [walk_not_dir fun s e he => hdir ⟨s, e, he⟩]
    exact .error _
  obtain ⟨s, e, he⟩ := hdir
  by_cases hnil : s = true ∧ c = []
  · obtain ⟨rfl, rfl⟩ := hnil
    rw [walk_empty he]
    exact .stay he rfl
  by_cases hc : Usable s c
  swap
  · obtain ⟨err, herr⟩ := (walk_unusable he hc hnil :
      ∃ err, walk look root follow jump cur entry (c :: cs) = .error err)
    rw [herr]
    exact .error _
  cases hec : e c with
  | none =>
    rw [walk_none he hc hec]
    split
    · next hcs => exact .missing he hc hec hcs
    · exact .error _
  | some i =>
    by_cases hlink : ∃ t, look i = .link t
    · obtain ⟨t, ht⟩ := hlink
      rw [walk_link he hc hec ht]
      split
      · next hcs => exact .last he hc hec ht hcs
      · next hcs =>
        split
        · exact .error _
        · exact .jump he hc hec ht hcs
    · have hlink' : ∀ t, look i ≠ .link t := fun t ht => hlink ⟨t, ht⟩
      rw [walk_some he hc hec hlink']
      exact .next he hc hec hlink'

/-! ### A changed entry -/

/-- A relation between resolutions before and after the entry `n` of `d` has
    changed, as far as they do not end there. -/
structure Res.Carried (d : Ino) (n : Name) (R : Res → Res → Prop) : Prop where
  error : ∀ err err', R (.error err) (.error err')
  missing : ∀ a b, (a, b) ≠ (d, n) → R (.missing a b) (.missing a b)
  found : ∀ entry i, entry ≠ some (d, n) → R (.found entry i) (.found entry i)

section changed
variable {R : Res → Res → Prop}

/-- Another entry is looked up in both. -/
theorem walk_other (hR : Res.Carried d n R) {e' : Name → Option Ino} (he : look cur = .dir s e)
    (he' : look' cur = .dir s e') (hc : Usable s c) (hec : e' c = e c) (hcur : (cur, c) ≠ (d, n))
    (hlinks : ∀ i t, look' i = .link t ↔ look i = .link t)
    (hjump : ∀ cur cs, R (jump cur cs) (jump' cur cs))
    (hnext : ∀ i, R (walk look root follow jump i (some (cur, c)) cs)
      (walk look' root follow jump' i (some (cur, c)) cs)) :
    R (walk look root follow jump cur entry (c :: cs))
      (walk look' root follow jump' cur entry (c :: cs)) := by
  have hentry : some (cur, c) ≠ some (d, n) := fun heq => hcur (Option.some.inj heq)
  cases hi : e c with
  | none =>
    rw [walk_none he hc hi, walk_none he' hc (hec.trans hi)]
    split
    · exact hR.missing _ _ hcur
    · exact hR.error _ _
  | some i =>
    by_cases hlink : ∃ t, look i = .link t
    · obtain ⟨t, ht⟩ := hlink
      rw [walk_link he hc hi ht, walk_link he' hc (hec.trans hi) ((hlinks i t).mpr ht)]
      split
      · exact hR.found _ _ hentry
      · split
        · exact hR.error _ _
        · exact hjump _ _
    · rw [walk_some he hc hi fun t ht => hlink ⟨t, ht⟩,
        walk_some he' hc (hec.trans hi) fun t ht => hlink ⟨t, (hlinks i t).mp ht⟩]
      exact hnext i

/-- **A changed entry**: walks are related if they are at the entry itself. -/
theorem walk_changed (hR : Res.Carried d n R) {entries' : Name → Option Ino}
    (hd : look d = .dir search entries)
    (hlook : look' = Function.update look d (.dir search entries'))
    (hsame : ∀ c, c ≠ n → entries' c = entries c)
    (hjump : ∀ cur cs, R (jump cur cs) (jump' cur cs))
    (hhere : Usable search n → ∀ entry cs, R (walk look root follow jump d entry (n :: cs))
      (walk look' root follow jump' d entry (n :: cs))) (cs : List Name) :
    ∀ cur entry, entry ≠ some (d, n) →
      R (walk look root follow jump cur entry cs)
        (walk look' root follow jump' cur entry cs) := by
  have hd' : look' d = .dir search entries' := by rw [hlook, Function.update_self]
  have hne : ∀ i, i ≠ d → look' i = look i := fun i hi => by rw [hlook, Function.update_of_ne hi]
  have hlinks : ∀ i t, look' i = .link t ↔ look i = .link t := by
    intro i t
    rcases eq_or_ne i d with rfl | hi
    · rw [hd, hd']
      exact iff_of_false (fun h => by cases h) fun h => by cases h
    · rw [hne i hi]
  induction cs with
  | nil => exact fun cur entry hentry => hR.found _ _ hentry
  | cons c cs ih =>
    intro cur entry hentry
    by_cases hdir : ∃ s e, look cur = .dir s e
    swap
    · -- no directory in either
      have hcur : cur ≠ d := fun heq => hdir ⟨_, _, heq ▸ hd⟩
      rw [walk_not_dir fun s e he => hdir ⟨s, e, he⟩,
        walk_not_dir fun s e he => hdir ⟨s, e, (hne cur hcur).symm.trans he⟩]
      exact hR.error _ _
    obtain ⟨s, e, he⟩ := hdir
    obtain ⟨e', he', hother⟩ : ∃ e', look' cur = .dir s e' ∧ ((cur, c) ≠ (d, n) → e' c = e c) := by
      rcases eq_or_ne cur d with rfl | hcur
      · rw [hd] at he
        cases he
        exact ⟨_, hd', fun hcn => hsame c fun heq => hcn (by rw [heq])⟩
      · exact ⟨e, (hne cur hcur).trans he, fun _ => rfl⟩
    by_cases hnil : s = true ∧ c = []
    · obtain ⟨rfl, rfl⟩ := hnil
      rw [walk_empty he, walk_empty he']
      exact ih cur none (by simp)
    by_cases hc : Usable s c
    swap
    · obtain ⟨err, herr⟩ := (walk_unusable he hc hnil :
        ∃ err, walk look root follow jump cur entry (c :: cs) = .error err)
      obtain ⟨err', herr'⟩ := (walk_unusable he' hc hnil :
        ∃ err, walk look' root follow jump' cur entry (c :: cs) = .error err)
      rw [herr, herr']
      exact hR.error _ _
    by_cases hcur : (cur, c) = (d, n)
    · cases hcur
      rw [hd] at he
      cases he
      exact hhere hc entry cs
    · refine walk_other hR he he' hc (hother hcur) hcur hlinks hjump fun i => ih i _ ?_
      exact fun heq => hcur (Option.some.inj heq)

end changed

/-! ### A new entry -/

/-- What becomes of a resolution when the entry `n` of `d` leads to the new file `y`. -/
def Res.Put (d : Ino) (n : Name) (y : Ino) : Res → Res → Prop
  | .found entry i, r => r = .found entry (if entry = some (d, n) then y else i)
  | .missing a b, r => r = if (a, b) = (d, n) then .found (some (d, n)) y else .missing a b
  | .error _, r => ∃ err, r = .error err

theorem Res.Put.new : Res.Put d n y (.missing d n) (.found (some (d, n)) y) := (if_pos rfl).symm

theorem Res.Put.replaced : Res.Put d n y (.found (some (d, n)) i) (.found (some (d, n)) y) := by
  rw [Res.Put, if_pos rfl]

theorem Res.Put.carried : Res.Carried d n (Res.Put d n y) where
  error _ _ := ⟨_, rfl⟩
  missing _ _ h := (if_neg h).symm
  found _ _ h := by rw [Res.Put, if_neg h]

theorem walk_put (hd : look d = .dir search entries)
    (hlook : look' = Function.update look d (.dir search (Function.update entries n (some y))))
    (hold : ∀ i, entries n = some i → look i = .leaf) (hy : look y = .leaf)
    (hjump : ∀ cur cs, Res.Put d n y (jump cur cs) (jump' cur cs)) (cs : List Name) :
    ∀ cur entry, entry ≠ some (d, n) →
      Res.Put d n y (walk look root follow jump cur entry cs)
        (walk look' root follow jump' cur entry cs) := by
  have hyd : y ≠ d := by
    rintro rfl
    rw [hd] at hy
    cases hy
  have hd' : look' d = .dir search (Function.update entries n (some y)) := by
    rw [hlook, Function.update_self]
  have hy' : look' y = .leaf := by rw [hlook, Function.update_of_ne hyd, hy]
  refine walk_changed Res.Put.carried hd hlook (fun c hc => Function.update_of_ne hc ..) hjump
    (fun hn entry cs => ?_) cs
  -- behind the entry is a file now; before, there was a file or nothing
  rw [walk_some hd' hn (Function.update_self ..) (fun t ht => by rw [hy'] at ht; cases ht),
    walk_leaf hy']
  cases hi : entries n with
  | none =>
    rw [walk_none hd hn hi]
    split
    · exact .new
    · exact Res.Put.carried.error _ _
  | some i =>
    have hleaf := hold i hi
    rw [walk_some hd hn hi (fun t ht => by rw [hleaf] at ht; cases ht), walk_leaf hleaf]
    split
    · exact .replaced
    · exact Res.Put.carried.error _ _

theorem follow_links_put (hd : look d = .dir search entries)
    (hlook : look' = Function.update look d (.dir search (Function.update entries n (some y))))
    (hold : ∀ i, entries n = some i → look i = .leaf) (hy : look y = .leaf) (links : ℕ) :
    ∀ cur cs, Res.Put d n y (follow_links look root follow links cur cs)
      (follow_links look' root follow links cur cs) := by
  induction links with
  | zero => exact fun _ _ => Res.Put.carried.error _ _
  | succ links ih => exact fun cur cs => walk_put hd hlook hold hy ih cs cur none (by simp)

/-! ### A removed entry -/

/-- What becomes of a resolution without the entry `n` of `d`: nothing, or it
    ends there, or it breaks off. -/
def Res.Gone (d : Ino) (n : Name) (r r' : Res) : Prop :=
  r' = r ∨ r' = .missing d n ∨ ∃ err, r' = .error err

theorem Res.Gone.carried : Res.Carried d n (Res.Gone d n) where
  error _ _ := .inr (.inr ⟨_, rfl⟩)
  missing _ _ _ := .inl rfl
  found _ _ _ := .inl rfl

theorem follow_links_gone (hd : look d = .dir search entries)
    (hlook : look' = Function.update look d (.dir search (Function.update entries n none)))
    (links : ℕ) :
    ∀ cur cs, Res.Gone d n (follow_links look root follow links cur cs)
      (follow_links look' root follow links cur cs) := by
  have hd' : look' d = .dir search (Function.update entries n none) := by
    rw [hlook, Function.update_self]
  induction links with
  | zero => exact fun _ _ => .inl rfl
  | succ links ih =>
    intro cur cs
    refine walk_changed Res.Gone.carried hd hlook (fun c hc => Function.update_of_ne hc ..) ih
      (fun hn entry cs => ?_) cs cur none (by simp)
    rw [walk_none hd' hn (Function.update_self ..)]
    split
    · exact .inr (.inl rfl)
    · exact .inr (.inr ⟨_, rfl⟩)

/-! ### What a resolution has seen -/

/-- An entry that was followed leads to the inode, and without one it is a
    directory; an entry that is missing is missing in a directory. -/
def Res.Seen (look : Ino → Look) : Res → Prop
  | .found (some (d, n)) i => ∃ s e, look d = .dir s e ∧ e n = some i
  | .found none i => ∃ s e, look i = .dir s e
  | .missing d n => ∃ s e, look d = .dir s e ∧ e n = none
  | _ => True

theorem walk_seen (hjump : ∀ cur cs, cs ≠ [] → (jump cur cs).Seen look) (cs : List Name) :
    ∀ cur entry, (cs = [] → (Res.found entry cur).Seen look) →
      (walk look root follow jump cur entry cs).Seen look := by
  induction cs with
  | nil => exact fun cur entry h => h rfl
  | cons c cs ih =>
    intro cur entry _
    have hwalked := walk_cons look root follow jump cur entry c cs
    generalize walk look root follow jump cur entry (c :: cs) = r at hwalked
    cases hwalked with
    | error => trivial
    | stay hd => exact ih cur none fun _ => ⟨_, _, hd⟩
    | missing hd _ hn => exact ⟨_, _, hd, hn⟩
    | last hd _ hn => exact ⟨_, _, hd, hn⟩
    | jump => exact hjump _ _ fun h => List.splitOn_ne_nil _ _ (List.append_eq_nil_iff.mp h).1
    | next hd _ hn => exact ih _ _ fun _ => ⟨_, _, hd, hn⟩

theorem follow_links_seen (links : ℕ) (cur : Ino) (cs : List Name) (hcs : cs ≠ []) :
    (follow_links look root follow links cur cs).Seen look := by
  induction links generalizing cur cs with
  | zero => trivial
  | succ links ih => exact walk_seen ih cs cur none fun h => absurd h hcs

/-! ### The last component -/

/-- Only a link at the end is followed or not. -/
theorem walk_follow
    (hjump : ∀ cur cs, (∀ l i t, jump cur cs = .found l i → look i ≠ .link t) →
      jump' cur cs = jump cur cs) (cs : List Name) :
    ∀ cur entry,
      (∀ l i t, walk look root false jump cur entry cs = .found l i → look i ≠ .link t) →
      walk look root true jump' cur entry cs = walk look root false jump cur entry cs := by
  induction cs with
  | nil => exact fun _ _ _ => rfl
  | cons c cs ih =>
    intro cur entry hlast
    by_cases hdir : ∃ s e, look cur = .dir s e
    swap
    · have hno : ∀ s e, look cur ≠ .dir s e := fun s e he => hdir ⟨s, e, he⟩
      rw [walk_not_dir hno, walk_not_dir hno]
    obtain ⟨s, e, he⟩ := hdir
    by_cases hnil : s = true ∧ c = []
    · obtain ⟨rfl, rfl⟩ := hnil
      rw [walk_empty he] at hlast ⊢
      rw [walk_empty he]
      exact ih cur none hlast
    by_cases hc : Usable s c
    swap
    · rcases eq_or_ne s false with rfl | hs
      · simp only [walk, he, if_pos]
      · have hlong : 255 < c.length := by
          by_contra hle
          have hs' : s = true := by simpa using hs
          exact hc ⟨hs', fun h => hnil ⟨hs', h⟩, not_lt.mp hle⟩
        have hc' : c ≠ [] := by
          rintro rfl
          simp at hlong
        simp only [walk, he, if_neg hs, if_neg hc', if_pos hlong]
    cases hec : e c with
    | none => rw [walk_none he hc hec, walk_none he hc hec]
    | some i =>
      by_cases hlink : ∃ t, look i = .link t
      · obtain ⟨t, ht⟩ := hlink
        rw [walk_link he hc hec ht] at hlast ⊢
        rw [walk_link he hc hec ht]
        by_cases hcs : cs = []
        · -- the link would have been the end
          rw [if_pos ⟨hcs, rfl⟩] at hlast
          exact absurd ht (hlast _ i t rfl)
        · have hmore : ∀ b, ¬ (cs = [] ∧ b = false) := fun _ h => hcs h.1
          rw [if_neg (hmore false)] at hlast
          rw [if_neg (hmore true), if_neg (hmore false)]
          by_cases ht : t = []
          · rw [if_pos ht, if_pos ht]
          · rw [if_neg ht] at hlast
            rw [if_neg ht, if_neg ht]
            exact hjump _ _ hlast
      · have hlink' : ∀ t, look i ≠ .link t := fun t ht => hlink ⟨t, ht⟩
        rw [walk_some he hc hec hlink'] at hlast ⊢
        rw [walk_some he hc hec hlink']
        exact ih i _ hlast

theorem follow_links_follow (links : ℕ) (cur : Ino) (cs : List Name)
    (h : ∀ l i t, follow_links look root false links cur cs = .found l i → look i ≠ .link t) :
    follow_links look root true links cur cs = follow_links look root false links cur cs := by
  induction links generalizing cur cs with
  | zero => rfl
  | succ links ih => exact walk_follow (fun cur cs => ih cur cs) cs cur none h

/-- If no link is followed at the end, what is missing is the last component. -/
theorem walk_missing
    (hjump : ∀ cur cs, jump cur cs = .missing d n → cs.getLast? = some n ∧ n ≠ [])
    (cs : List Name) :
    ∀ cur entry, walk look root false jump cur entry cs = .missing d n →
      cs.getLast? = some n ∧ n ≠ [] := by
  induction cs with
  | nil =>
    intro cur entry h
    cases h
  | cons c cs ih =>
    intro cur entry h
    have hrest : cs.getLast? = some n ∧ n ≠ [] → (c :: cs).getLast? = some n ∧ n ≠ [] :=
      fun ⟨h, hn⟩ => ⟨by rw [List.getLast?_cons, h, Option.getD_some], hn⟩
    have hwalked := walk_cons look root false jump cur entry c cs
    rw [h] at hwalked
    generalize hr : Res.missing d n = r at hwalked
    cases hwalked with
    | error => cases hr
    | stay => exact hrest (ih cur none hr.symm)
    | missing _ hc _ hcs =>
      cases hr
      rw [hcs]
      exact ⟨rfl, hc.2.1⟩
    | last => cases hr
    | jump _ _ _ _ hcs =>
      obtain ⟨hlast, hn⟩ := hjump _ _ hr.symm
      rw [List.getLast?_append_of_ne_nil _ fun h => hcs ⟨h, rfl⟩] at hlast
      exact hrest ⟨hlast, hn⟩
    | next => exact hrest (ih _ _ hr.symm)

theorem follow_links_missing (links : ℕ) :
    ∀ cur cs, follow_links look root false links cur cs = .missing d n →
      cs.getLast? = some n ∧ n ≠ [] := by
  induction links with
  | zero =>
    intro cur cs h
    cases h
  | succ links ih => exact fun cur cs => walk_missing ih cs cur none

end walk

namespace FS

variable {fs : FS} {i j d : Ino} {n : Name} {search : Bool} {entries : Name → Option Ino}
  {follow : Bool} {path : Path}

theorem look_put (h : fs.node d = .dir search entries) :
    (fs.put d n).look =
      Function.update fs.look d (.dir search (Function.update entries n (some fs.next))) := by
  have hne : d ≠ fs.next := (lt_next_of_dir h).ne
  funext j
  rw [look, node_put h]
  rcases eq_or_ne j fs.next with rfl | hnext
  · rw [Function.update_self, Function.update_of_ne hne.symm, look, fs.unused _ le_rfl]
    rfl
  · rw [Function.update_of_ne hnext]
    rcases eq_or_ne j d with rfl | hj
    · rw [Function.update_self, Function.update_self]
      rfl
    · rw [Function.update_of_ne hj, Function.update_of_ne hj]
      rfl

theorem look_remove (h : fs.node d = .dir search entries) :
    (fs.remove d n).look =
      Function.update fs.look d (.dir search (Function.update entries n none)) := by
  funext j
  rw [look, node_remove h]
  rcases eq_or_ne j d with rfl | hj
  · rw [Function.update_self, Function.update_self]
    rfl
  · rw [Function.update_of_ne hj, Function.update_of_ne hj]
    rfl

theorem put_root : (fs.put d n).root = fs.root ∧ (fs.put d n).cwd = fs.cwd := by
  unfold put
  split <;> exact ⟨rfl, rfl⟩

theorem remove_root : (fs.remove d n).root = fs.root ∧ (fs.remove d n).cwd = fs.cwd := by
  unfold remove
  split <;> exact ⟨rfl, rfl⟩

theorem look_of_dir (h : fs.node d = .dir search entries) : fs.look d = .dir search entries := by
  rw [look, h]
  rfl

theorem look_next (fs : FS) : fs.look fs.next = .leaf := by
  rw [look, fs.unused _ le_rfl]
  rfl

/-- The entry `n` of `d` leads to `y` now; it was missing or led to a file. -/
theorem put_of_look {fs' : FS} {y : Ino} (h : fs.look d = .dir search entries)
    (hold : ∀ i, entries n = some i → fs.look i = .leaf) (hy : fs.look y = .leaf)
    (hlook : fs'.look =
      Function.update fs.look d (.dir search (Function.update entries n (some y))))
    (hroot : fs'.root = fs.root ∧ fs'.cwd = fs.cwd) (follow : Bool) (path : Path) :
    Res.Put d n y (fs.resolve follow path) (fs'.resolve follow path) := by
  rw [resolve, resolve, hroot.1, hroot.2]
  split
  · exact Res.Put.carried.error _ _
  · split
    · exact Res.Put.carried.error _ _
    · exact follow_links_put h hlook hold hy _ _ _

/-- A new file at an entry that was missing or led to a file. -/
theorem resolve_put (h : fs.node d = .dir search entries)
    (hold : ∀ i, entries n = some i → fs.look i = .leaf) (follow : Bool) (path : Path) :
    Res.Put d n fs.next (fs.resolve follow path) ((fs.put d n).resolve follow path) :=
  put_of_look (look_of_dir h) hold (look_next fs) (look_put h) put_root follow path

/-- Without an entry, a path leads where it led, ends at the entry, or breaks off. -/
theorem resolve_gone (h : fs.node d = .dir search entries) (n : Name) (follow : Bool)
    (path : Path) : Res.Gone d n (fs.resolve follow path) ((fs.remove d n).resolve follow path) := by
  rw [resolve, resolve, remove_root.1, remove_root.2]
  split
  · exact .inl rfl
  · split
    · exact .inl rfl
    · exact follow_links_gone (look_of_dir h) (look_remove h) _ _ _

/-- What is found without an entry is found with it. -/
theorem resolve_remove (h : fs.node d = .dir search entries) {l : Option (Ino × Name)}
    (hfound : (fs.remove d n).resolve follow path = .found l i) :
    fs.resolve follow path = .found l i := by
  rcases resolve_gone h n follow path with hsame | hmissing | ⟨err, herr⟩
  · rw [← hsame, hfound]
  · rw [hfound] at hmissing
    cases hmissing
  · rw [hfound] at herr
    cases herr

theorem resolve_seen (fs : FS) (follow : Bool) (path : Path) :
    (fs.resolve follow path).Seen fs.look := by
  unfold resolve
  split
  · trivial
  · split
    · trivial
    · exact follow_links_seen _ _ _ (List.splitOn_ne_nil _ _)

theorem node_of_look_dir (h : fs.look d = .dir search entries) :
    fs.node d = .dir search entries := by
  unfold look at h
  cases hnode : fs.node d with
  | dir s e =>
    rw [hnode] at h
    cases h
    rfl
  | free | reg _ | special _ | symlink _ =>
    rw [hnode] at h
    cases h

theorem resolve_missing (h : fs.resolve follow path = .missing d n) :
    ∃ search entries, fs.node d = .dir search entries ∧ entries n = none := by
  have hseen := resolve_seen fs follow path
  rw [h] at hseen
  obtain ⟨s, e, hd, hn⟩ := hseen
  exact ⟨s, e, node_of_look_dir hd, hn⟩

theorem resolve_entry (h : fs.resolve follow path = .found (some (d, n)) i) :
    ∃ search entries, fs.node d = .dir search entries ∧ entries n = some i := by
  have hseen := resolve_seen fs follow path
  rw [h] at hseen
  obtain ⟨s, e, hd, hn⟩ := hseen
  exact ⟨s, e, node_of_look_dir hd, hn⟩

/-- An entry that is found is not missing elsewhere. -/
theorem entry_not_missing {path' : Path} {follow' : Bool}
    (h : fs.resolve follow path = .found (some (d, n)) i) :
    fs.resolve follow' path' ≠ .missing d n := by
  intro h'
  obtain ⟨s, e, hd, hn⟩ := resolve_entry h
  obtain ⟨s', e', hd', hn'⟩ := resolve_missing h'
  rw [hd] at hd'
  cases hd'
  rw [hn] at hn'
  cases hn'

/-- What a path leads to is in use. -/
theorem lt_next_of_found {l : Option (Ino × Name)} (h : fs.resolve follow path = .found l i) :
    i < fs.next := by
  cases l with
  | some entry =>
    obtain ⟨s, e, hd, hn⟩ := resolve_entry h
    exact fs.named _ _ _ _ _ hd hn
  | none =>
    have hseen := resolve_seen fs follow path
    rw [h] at hseen
    obtain ⟨s, e, hd⟩ := hseen
    exact lt_next_of_dir (node_of_look_dir hd)

theorem stat_eq_some : fs.stat path = some i ↔ ∃ l, fs.resolve true path = .found l i := by
  unfold stat
  cases fs.resolve true path <;> simp

theorem lt_next_of_stat (h : fs.stat path = some i) : i < fs.next := by
  obtain ⟨l, hfound⟩ := stat_eq_some.mp h
  exact lt_next_of_found hfound

/-! ### Calls -/

theorem open_read_eq_ok : fs.open_read path = .ok i ↔ fs.stat path = some i := by
  unfold open_read FS.stat
  cases fs.resolve true path <;> simp

theorem isDir_eq_false_iff : fs.isDir i = false ↔ ∀ s e, fs.node i ≠ .dir s e := by
  unfold isDir
  cases fs.node i <;> simp

theorem node_put_of_not_dir (h : fs.isDir i = false) (hi : i ≠ fs.next) (d : Ino) (n : Name) :
    (fs.put d n).node i = fs.node i := by
  unfold put
  split
  · next s e hd =>
    have hne : i ≠ d := fun heq => isDir_eq_false_iff.mp h s e (heq ▸ hd)
    exact (Function.update_of_ne hi ..).trans (Function.update_of_ne hne ..)
  · rfl

theorem node_remove_of_not_dir (h : fs.isDir i = false) (d : Ino) (n : Name) :
    (fs.remove d n).node i = fs.node i := by
  unfold remove
  split
  · next s e hd =>
    have hne : i ≠ d := fun heq => isDir_eq_false_iff.mp h s e (heq ▸ hd)
    exact Function.update_of_ne hne ..
  · rfl

@[simp] theorem remove_next : (fs.remove d n).next = fs.next := by
  unfold remove
  split <;> rfl

/-- What `isReg`, `isDir` and `data` say depends on the inode only. -/
theorem isReg_congr {fs' : FS} (h : fs'.node i = fs.node i) : fs'.isReg i = fs.isReg i := by
  rw [isReg, isReg, h]

theorem isDir_congr {fs' : FS} (h : fs'.node i = fs.node i) : fs'.isDir i = fs.isDir i := by
  rw [isDir, isDir, h]

theorem data_congr {fs' : FS} (h : fs'.node i = fs.node i) : fs'.data i = fs.data i := by
  rw [data, data, h]

theorem isDir_remove : (fs.remove d n).isDir i = fs.isDir i := by
  cases hdir : fs.isDir i with
  | false => rw [isDir_congr (node_remove_of_not_dir hdir d n), hdir]
  | true =>
    -- a directory with an entry less is still one
    obtain ⟨s, e, hnode⟩ : ∃ s e, fs.node i = .dir s e := by
      by_contra hno
      rw [isDir_eq_false_iff.mpr fun s e he => hno ⟨s, e, he⟩] at hdir
      cases hdir
    have hnode' : ∃ e', (fs.remove d n).node i = .dir s e' := by
      rcases eq_or_ne i d with rfl | hne
      · exact ⟨_, (congrFun (node_remove hnode) i).trans (Function.update_self ..)⟩
      · unfold remove
        split
        · exact ⟨e, (Function.update_of_ne hne ..).trans hnode⟩
        · exact ⟨e, hnode⟩
    obtain ⟨e', hnode'⟩ := hnode'
    rw [isDir, hnode']

theorem isReg_eq_false_of_isDir (h : fs.isDir i) : fs.isReg i = false := by
  unfold isDir at h
  unfold isReg
  split at h
  · next hnode => rw [hnode]
  · cases h

theorem isDir_of_isReg (h : fs.isReg i) : fs.isDir i = false := by
  cases hdir : fs.isDir i with
  | false => rfl
  | true =>
    rw [isReg_eq_false_of_isDir hdir] at h
    cases h

theorem isReg_remove : (fs.remove d n).isReg i = fs.isReg i := by
  cases hdir : fs.isDir i with
  | false => exact isReg_congr (node_remove_of_not_dir hdir d n)
  | true =>
    rw [isReg_eq_false_of_isDir hdir, isReg_eq_false_of_isDir (isDir_remove.trans hdir)]

theorem lt_next_of_isReg (h : fs.isReg i) : i < fs.next := by
  by_contra hle
  rw [isReg, fs.unused i (not_lt.mp hle)] at h
  cases h

/-- A file that has been opened for writing: `path` leads to it, it is empty,
    and it is the file that `path` led to before, or a new one. No other file
    has changed. -/
structure Opened (fs fs' : FS) (path : Path) (j : Ino) : Prop where
  stat : fs'.stat path = some j
  keeps : ∀ k, k ≠ j → fs.isDir k = false → fs'.node k = fs.node k
  not_dir : fs'.isDir j = false
  empty : fs'.isReg j → fs'.node j = .reg []
  origin : fs.stat path = some j ∧ fs.isDir j = false ∧ fs'.isReg j = fs.isReg j ∨
    j = fs.next ∧ fs'.isReg j

theorem open_trunc_ok {fs' : FS} (h : fs.open_trunc path = .ok (j, fs')) :
    Opened fs fs' path j := by
  unfold open_trunc at h
  split at h
  · next l i hfound =>
    split at h
    · cases h
    next hdir =>
    cases h
    have hstat : fs.stat path = some j := stat_eq_some.mpr ⟨l, hfound⟩
    refine ⟨?_, fun k hk _ => node_setData_ne hk, ?_, ?_, .inl ⟨hstat, by simpa using hdir, ?_⟩⟩
    · rw [FS.stat, resolve_setData]
      exact hstat
    all_goals
      cases hreg : fs.isReg j with
      | false => rw [setData_of_not_reg hreg]; simp_all
      | true =>
        obtain ⟨old, hnode⟩ := exists_of_isReg hreg
        simp [isDir, isReg, setData_of_reg hnode]
  · next d n hmissing =>
    cases h
    obtain ⟨s, e, hd, hn⟩ := resolve_missing hmissing
    have hnode : (fs.put d n).node fs.next = .reg [] := by
      rw [node_put hd, Function.update_self]
    refine ⟨?_, fun k hk hdir => node_put_of_not_dir hdir hk d n, ?_, fun _ => hnode,
      .inr ⟨rfl, ?_⟩⟩
    · have hput := resolve_put hd (fun i hi => by rw [hn] at hi; cases hi) true path
      rw [hmissing] at hput
      exact stat_eq_some.mpr ⟨_, hput.trans (if_pos rfl)⟩
    · rw [isDir, hnode]
    · rw [isReg, hnode]
  · cases h

/-- A file is truncated. -/
theorem open_trunc_of_not_dir (hstat : fs.stat path = some i) (hdir : fs.isDir i = false) :
    fs.open_trunc path = .ok (i, fs.setData i []) := by
  obtain ⟨l, hfound⟩ := stat_eq_some.mp hstat
  rw [open_trunc, hfound]
  simp [hdir]

theorem open_trunc_of_isReg (hstat : fs.stat path = some i) (hreg : fs.isReg i) :
    fs.open_trunc path = .ok (i, fs.setData i []) :=
  open_trunc_of_not_dir hstat (isDir_of_isReg hreg)

theorem unlink_ok {fs' : FS} (h : fs.unlink path = .ok fs') :
    ∃ d n search entries i, fs.resolve false path = .found (some (d, n)) i ∧
      fs.node d = .dir search entries ∧ entries n = some i ∧ fs.isDir i = false ∧
      fs' = fs.remove d n := by
  unfold unlink at h
  split at h
  · next d n i hfound =>
    obtain ⟨s, e, hd, hn⟩ := resolve_entry hfound
    split at h
    · cases h
    · next hdir =>
      cases h
      exact ⟨d, n, s, e, i, hfound, hd, hn, by simpa using hdir, rfl⟩
  all_goals cases h

/-- Removed and made again. -/
theorem Opened.of_removed {fs₂ : FS} (hfound : fs.resolve follow path = .found (some (d, n)) i)
    (hopened : Opened (fs.remove d n) fs₂ path j) : Opened fs fs₂ path j := by
  obtain ⟨s, e, hd, -⟩ := resolve_entry hfound
  obtain ⟨hstat, hkeeps, hdir, hempty, horigin⟩ := hopened
  rw [remove_next] at horigin
  refine ⟨hstat, ?_, hdir, hempty, ?_⟩
  · intro k hk hkdir
    have hnode := node_remove_of_not_dir hkdir d n
    rw [hkeeps k hk ((isDir_congr hnode).trans hkdir), hnode]
  · rcases horigin with ⟨hold, hjdir, hreg⟩ | hnew
    · obtain ⟨l, hfound⟩ := stat_eq_some.mp hold
      have hstat' : fs.stat path = some j := stat_eq_some.mpr ⟨l, resolve_remove hd hfound⟩
      exact .inl ⟨hstat', isDir_remove.symm.trans hjdir, hreg.trans isReg_remove⟩
    · exact .inr hnew

end FS
end FileSystem
