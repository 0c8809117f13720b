import OsLessons.Lib.Resolution

/-! # Names and writing

  Opening a file for writing makes at most one name (`Entered`), and what was
  found is found. If the name at the end of the path has been removed before,
  other paths may have gone by it: they lead to the new file then
  (`stat_reopened`), or break off, which only a symbolic link can make them do
  (`not_breaksOff`).
-/

namespace FileSystem

namespace FS

variable {fs : FS} {i j d : Ino} {n : Name} {search : Bool} {entries : Name → Option Ino}
  {follow : Bool} {path : Path}

/-- The path ends at a symbolic link. -/
def EndsAtLink (fs : FS) (path : Path) : Prop :=
  ∃ l i t, fs.resolve false path = .found l i ∧ fs.look i = .link t

theorem resolve_of_not_link (h : ¬ fs.EndsAtLink path) :
    fs.resolve true path = fs.resolve false path := by
  have hlast : ∀ l i t, fs.resolve false path = .found l i → fs.look i ≠ .link t :=
    fun l i t hfound ht => h ⟨l, i, t, hfound, ht⟩
  unfold resolve at hlast ⊢
  split
  · rfl
  · next hnil =>
    split
    · rfl
    · next hlong =>
      rw [if_neg hnil, if_neg hlong] at hlast
      exact follow_links_follow _ _ _ hlast

/-- A missing name is the last component, if the path does not end at a link. -/
theorem last_of_missing (h : fs.resolve false path = .missing d n) :
    (components path).getLast? = some n ∧ n ≠ [] := by
  unfold resolve at h
  split at h
  · cases h
  · split at h
    · cases h
    · exact follow_links_missing _ _ _ h

theorem look_eq_leaf (hdir : fs.isDir i = false) (hlink : ∀ t, fs.look i ≠ .link t) :
    fs.look i = .leaf := by
  cases hlook : fs.look i with
  | leaf => rfl
  | link t => exact absurd hlook (hlink t)
  | dir s e => exact absurd (node_of_look_dir hlook) (isDir_eq_false_iff.mp hdir s e)

theorem isDir_iff_look : fs.isDir i ↔ ∃ s e, fs.look i = .dir s e := by
  unfold isDir look
  cases fs.node i <;> simp [Node.look]

/-- The inodes of directories are the same when entries have changed. -/
theorem isDir_of_update {fs' : FS} {e : Name → Option Ino} (h : fs.look d = .dir search entries)
    (hlook : fs'.look = Function.update fs.look d (.dir search e)) : fs'.isDir i = fs.isDir i := by
  rw [Bool.eq_iff_iff, isDir_iff_look, isDir_iff_look, hlook]
  rcases eq_or_ne i d with rfl | hne
  · rw [Function.update_self, h]
    exact iff_of_true ⟨_, _, rfl⟩ ⟨_, _, rfl⟩
  · rw [Function.update_of_ne hne]

/-! ### A file is opened -/

/-- The names when a file has been opened for writing. They are as before, or
    the entry that was missing leads to the new file. -/
structure Entered (fs fs' : FS) (path : Path) (j : Ino) : Prop where
  grows : fs.next ≤ fs'.next
  isDir : ∀ i, fs'.isDir i = fs.isDir i
  names : fs'.resolve = fs.resolve ∨ ∃ d n, j = fs.next ∧ fs.resolve true path = .missing d n ∧
    ∀ follow path', Res.Put d n j (fs.resolve follow path') (fs'.resolve follow path')

theorem Entered.setData {fs' : FS} {k : Ino} {x : List UInt8} (h : Entered fs fs' path j) :
    Entered fs (fs'.setData k x) path j := by
  obtain ⟨hgrows, hdirs, hnames⟩ := h
  refine ⟨by rwa [setData_next], fun i => ?_, by rwa [resolve_setData]⟩
  rw [← hdirs, Bool.eq_iff_iff, isDir_iff_look, isDir_iff_look, look_setData]

theorem next_le_put : fs.next ≤ (fs.put d n).next := by
  unfold put
  split
  · exact Nat.le_succ _
  · exact le_rfl

theorem open_trunc_entered {fs' : FS} (h : fs.open_trunc path = .ok (j, fs')) :
    Entered fs fs' path j := by
  unfold open_trunc at h
  split at h
  · split at h
    · cases h
    · cases h
      refine ⟨by simp, fun i => ?_, .inl (by simp)⟩
      rw [Bool.eq_iff_iff, isDir_iff_look, isDir_iff_look, look_setData]
  · next d n hmissing =>
    cases h
    obtain ⟨s, e, hd, hn⟩ := resolve_missing hmissing
    exact ⟨next_le_put, fun i => isDir_of_update (look_of_dir hd) (look_put hd),
      .inr ⟨d, n, rfl, hmissing, resolve_put hd fun i hi => by rw [hn] at hi; cases hi⟩⟩
  · cases h

section Entered
variable {fs' : FS} {path' : Path} {l : Option (Ino × Name)}

/-- What was found is found. -/
theorem Entered.found (h : Entered fs fs' path j) (hfound : fs.resolve follow path' = .found l i) :
    fs'.resolve follow path' = .found l i := by
  obtain ⟨-, -, heq | ⟨d, n, -, hmissing, hput⟩⟩ := h
  · rw [heq, hfound]
  have hres := hput follow path'
  rw [hfound, Res.Put] at hres
  rw [hres, if_neg]
  rintro rfl
  exact entry_not_missing hfound hmissing

theorem Entered.stat (h : Entered fs fs' path j) (hstat : fs.stat path' = some i) :
    fs'.stat path' = some i := by
  obtain ⟨l, hfound⟩ := stat_eq_some.mp hstat
  exact stat_eq_some.mpr ⟨l, h.found hfound⟩

/-- What breaks off breaks off. -/
theorem Entered.error (h : Entered fs fs' path j) {err : Errno}
    (herr : fs.resolve follow path' = .error err) :
    ∃ err', fs'.resolve follow path' = .error err' := by
  obtain ⟨-, -, heq | ⟨d, n, -, -, hput⟩⟩ := h
  · exact ⟨err, by rw [heq, herr]⟩
  · have hres := hput follow path'
    rwa [herr] at hres

/-- What was missing is missing, unless it is the entry that has been made. -/
theorem Entered.missing (h : Entered fs fs' path j)
    (hmissing : fs.resolve follow path' = .missing d n) :
    fs'.resolve follow path' = .missing d n ∨
      fs.resolve true path = .missing d n ∧ ∃ l, fs'.resolve follow path' = .found l j := by
  obtain ⟨-, -, heq | ⟨a, b, -, hpath, hput⟩⟩ := h
  · exact .inl (by rw [heq, hmissing])
  have hres := hput follow path'
  rw [hmissing, Res.Put] at hres
  split at hres
  · next hab =>
    cases hab
    exact .inr ⟨hpath, _, hres⟩
  · exact .inl hres

/-- What is found was found before, or is the file that was opened. -/
theorem Entered.found_back (h : Entered fs fs' path j)
    (hfound : fs'.resolve follow path' = .found l i) :
    fs.resolve follow path' = .found l i ∨ i = j ∧ j = fs.next := by
  obtain ⟨-, -, heq | ⟨d, n, hnew, -, hput⟩⟩ := h
  · exact .inl (heq ▸ hfound)
  have hres := hput follow path'
  rw [hfound] at hres
  cases hold : fs.resolve follow path' with
  | found l' i' =>
    rw [hold, Res.Put] at hres
    split at hres <;> cases hres
    · exact .inr ⟨rfl, hnew⟩
    · exact .inl rfl
  | missing a b =>
    rw [hold, Res.Put] at hres
    split at hres <;> cases hres
    exact .inr ⟨rfl, hnew⟩
  | error err =>
    rw [hold] at hres
    obtain ⟨err', herr⟩ := hres
    cases herr

theorem Entered.stat_back (h : Entered fs fs' path j) (hstat : fs'.stat path' = some i) :
    fs.stat path' = some i ∨ i = j ∧ j = fs.next := by
  obtain ⟨l, hfound⟩ := stat_eq_some.mp hstat
  exact (h.found_back hfound).imp_left fun h => stat_eq_some.mpr ⟨l, h⟩

end Entered

/-! ### A name is removed -/

/-- Without the entry `n` of `d`, the path breaks off before its last name. -/
def BreaksOff (fs : FS) (d : Ino) (n : Name) (path : Path) : Prop :=
  ∃ err, (fs.remove d n).resolve true path = .error err

/-- The path that has lost its last name. -/
theorem resolve_removed (h : fs.resolve false path = .found (some (d, n)) i) :
    (fs.remove d n).resolve true path = .missing d n ∨ fs.BreaksOff d n path := by
  obtain ⟨s, e, hd, hn⟩ := resolve_entry h
  have hd₁ : (fs.remove d n).node d = .dir s (Function.update e n none) := by
    rw [node_remove hd, Function.update_self]
  -- the entry is not found any more, so that no link is at the end
  have hgone : (fs.remove d n).resolve false path = .missing d n ∨
      ∃ err, (fs.remove d n).resolve false path = .error err := by
    refine (resolve_gone hd n false path).resolve_left fun hsame => ?_
    obtain ⟨s', e', hd', hn'⟩ := resolve_entry (hsame.trans h)
    rw [hd₁] at hd'
    cases hd'
    rw [Function.update_self] at hn'
    cases hn'
  have hlink : ¬ (fs.remove d n).EndsAtLink path := by
    rintro ⟨l, k, t, hfound, -⟩
    rcases hgone with hgone | ⟨err, hgone⟩ <;>
    · rw [hfound] at hgone
      cases hgone
  rw [BreaksOff, resolve_of_not_link hlink]
  exact hgone

/-- What a path leads to without an entry, it leads to with it. -/
theorem stat_remove (h : fs.node d = .dir search entries)
    (hstat : (fs.remove d n).stat path = some i) : fs.stat path = some i := by
  obtain ⟨l, hfound⟩ := stat_eq_some.mp hstat
  exact stat_eq_some.mpr ⟨l, resolve_remove h hfound⟩

/-- The path leads to `i`, or breaks off. -/
def OnlyTo (fs : FS) (path : Path) (i : Ino) : Prop :=
  fs.stat path = some i ∨ ∃ err, fs.resolve true path = .error err

theorem stat_eq_none_of_error {err : Errno} (h : fs.resolve true path = .error err) :
    fs.stat path = none := by
  rw [stat, h]

theorem Entered.onlyTo {fs' : FS} {path' : Path} (h : Entered fs fs' path j)
    (honly : fs.OnlyTo path' i) : fs'.OnlyTo path' i :=
  honly.imp h.stat fun ⟨_, herr⟩ => h.error herr

theorem OnlyTo.removed (h : fs.OnlyTo path i) (hd : fs.node d = .dir search entries)
    (hend : (fs.remove d n).resolve true path ≠ .missing d n) :
    (fs.remove d n).OnlyTo path i := by
  rcases resolve_gone hd n true path with hsame | hmissing | herr
  · rwa [OnlyTo, stat, hsame, ← stat]
  · exact absurd hmissing hend
  · exact .inr herr

/-- Removed and made again: other paths lead where they led, or to the new file,
    unless they break off. -/
theorem stat_reopened {fs' : FS} {path' : Path} (h : fs.resolve false path = .found (some (d, n)) i)
    (hopen : (fs.remove d n).open_trunc path = .ok (j, fs')) {k : Ino}
    (hstat : fs.stat path' = some k) (hwhole : ¬ fs.BreaksOff d n path') :
    fs'.stat path' = some k ∨ fs'.stat path' = some j := by
  obtain ⟨s, e, hd, -⟩ := resolve_entry h
  have hd₁ : (fs.remove d n).node d = .dir s (Function.update e n none) := by
    rw [node_remove hd, Function.update_self]
  rcases resolve_gone hd n true path' with hsame | hmissing | herr
  · left
    obtain ⟨l, hfound⟩ := stat_eq_some.mp hstat
    exact (open_trunc_entered hopen).stat (stat_eq_some.mpr ⟨l, hsame.trans hfound⟩)
  · right
    unfold open_trunc at hopen
    rcases resolve_removed h with hpath | ⟨err, herr⟩
    · rw [hpath] at hopen
      cases hopen
      have hput := resolve_put hd₁
        (fun k hk => by rw [Function.update_self] at hk; cases hk) true path'
      rw [hmissing] at hput
      exact stat_eq_some.mpr ⟨_, hput.trans (if_pos rfl)⟩
    · rw [herr] at hopen
      cases hopen
  · exact absurd herr hwhole

/-- Without the entry, and with it again. -/
theorem put_of_remove (h : fs.node d = .dir search entries) (hn : entries n = some i)
    (hi : fs.look i = .leaf) (follow : Bool) (path : Path) :
    Res.Put d n i ((fs.remove d n).resolve follow path) (fs.resolve follow path) := by
  have hid : i ≠ d := by
    rintro rfl
    rw [look_of_dir h] at hi
    cases hi
  have hlook := look_remove h (n := n)
  refine put_of_look (by rw [hlook, Function.update_self]) (fun k hk => ?_) ?_ ?_
    ⟨remove_root.1.symm, remove_root.2.symm⟩ follow path
  · rw [Function.update_self] at hk
    cases hk
  · rw [hlook, Function.update_of_ne hid, hi]
  · rw [hlook, Function.update_idem, Function.update_idem, ← hn, Function.update_eq_self,
      ← look_of_dir h, Function.update_eq_self]

section leaf
variable {path' : Path} {k : Ino}

/-- With the name of a file that is no symbolic link nothing else is lost. -/
theorem put_of_unlink (hlink : ¬ fs.EndsAtLink path)
    (h : fs.resolve false path = .found (some (d, n)) i) (hdir : fs.isDir i = false)
    (path' : Path) :
    Res.Put d n i ((fs.remove d n).resolve true path') (fs.resolve true path') := by
  obtain ⟨s, e, hd, hn⟩ := resolve_entry h
  exact put_of_remove hd hn (look_eq_leaf hdir fun t ht => hlink ⟨_, i, t, h, ht⟩) true path'

theorem not_breaksOff (hlink : ¬ fs.EndsAtLink path)
    (h : fs.resolve false path = .found (some (d, n)) i) (hdir : fs.isDir i = false)
    (hstat : fs.stat path' = some k) : ¬ fs.BreaksOff d n path' := by
  rintro ⟨err, herr⟩
  obtain ⟨l, hfound⟩ := stat_eq_some.mp hstat
  have hput := put_of_unlink hlink h hdir path'
  rw [herr, hfound] at hput
  obtain ⟨err', herr'⟩ := hput
  cases herr'

/-- Only a path to the file ends at its name. -/
theorem not_missing_unlinked (hlink : ¬ fs.EndsAtLink path)
    (h : fs.resolve false path = .found (some (d, n)) i) (hdir : fs.isDir i = false)
    (honly : fs.OnlyTo path' k) (hne : fs.stat path ≠ some k) :
    (fs.remove d n).resolve true path' ≠ .missing d n := by
  intro hmissing
  have hput := put_of_unlink hlink h hdir path'
  rw [hmissing, Res.Put, if_pos rfl] at hput
  rcases honly with hstat | ⟨err, herr⟩
  · obtain ⟨l, hfound⟩ := stat_eq_some.mp hstat
    rw [hput] at hfound
    cases hfound
    exact hne (stat_eq_some.mpr ⟨_, (resolve_of_not_link hlink).trans h⟩)
  · rw [hput] at herr
    cases herr

/-- A path to another file does not need the name. -/
theorem stat_unlinked (hlink : ¬ fs.EndsAtLink path)
    (h : fs.resolve false path = .found (some (d, n)) i) (hdir : fs.isDir i = false)
    (hstat : fs.stat path' = some k) (hne : fs.stat path ≠ some k) :
    (fs.remove d n).stat path' = some k := by
  obtain ⟨s, e, hd, -⟩ := resolve_entry h
  have honly := OnlyTo.removed (.inl hstat) hd
    (not_missing_unlinked hlink h hdir (.inl hstat) hne)
  exact honly.resolve_right (not_breaksOff hlink h hdir hstat)

end leaf

end FS
end FileSystem
