import OsLessons.Lib.FileSystem

/-! # myls

  `list_dir` lists a directory by its path and calls itself with the paths of
  the directories in it, each made by `snprintf` in a buffer of `PATH_MAX`
  bytes. `fuel` bounds the depth of the calls.

  A `Tree` is what the calls see: the files, what `lstat` tells about them, and
  the order in which a directory is read. Memory does not run out. A listing is
  its items and the widths of its columns (`Columns`); the lines of it are in
  `LongListing` and `Layout`.
-/

namespace Myls

open FileSystem

/-! ### What the calls see -/

/-- `struct stat` -/
structure Stat where
  st_ino : Ino
  st_mode : ℕ
  st_nlink : ℕ
  st_uid : ℕ
  st_gid : ℕ
  st_size : ℕ
  st_blocks : ℕ
  st_mtime : ℕ
  deriving DecidableEq

def S_IFMT : ℕ := 0o170000
def S_ISDIR (m : ℕ) : Bool := m &&& S_IFMT = 0o040000
def S_ISLNK (m : ℕ) : Bool := m &&& S_IFMT = 0o120000

def DOT : Name := [0x2e]
def DOTDOT : Name := [0x2e, 0x2e]

/-- An entry other than `.` and `..` -/
def Proper (n : Name) : Prop := n ≠ DOT ∧ n ≠ DOTDOT

instance (n : Name) : Decidable (Proper n) := inferInstanceAs (Decidable (_ ∧ _))

/-- The files, with directories that form a tree: `place` is the path of a
    directory from the root. -/
structure Tree where
  fs : FS
  stat : Ino → Stat
  readdir : Ino → List Name
  readable : Ino → Bool
  place : Ino → List Name
  st_ino : ∀ i, (stat i).st_ino = i
  st_mode : ∀ i, S_ISDIR (stat i).st_mode = fs.isDir i
  mem_readdir : ∀ d s e n, fs.node d = .dir s e → (n ∈ readdir d ↔ (e n).isSome)
  nodup_readdir : ∀ d, (readdir d).Nodup
  name : ∀ d s e n, fs.node d = .dir s e → (e n).isSome → n ≠ [] ∧ n.length ≤ 255 ∧ SLASH ∉ n
  dot : ∀ d s e, fs.node d = .dir s e → e DOT = some d
  dotdot : ∀ d s e, fs.node d = .dir s e → ∃ up, e DOTDOT = some up ∧ place up = (place d).dropLast
  child : ∀ d s e n i, fs.node d = .dir s e → e n = some i → fs.isDir i → Proper n →
    place i = place d ++ [n]

/-- The data bases of users and groups. -/
structure Names where
  getpwuid : ℕ → Option (List UInt8)
  getgrgid : ℕ → Option (List UInt8)

/-- The options that matter for what is listed and how wide it is. -/
structure Opts where
  l : Bool
  i : Bool
  n : Bool
  R : Bool
  a : Bool

/-- The path a `snprintf(p, sizeof p, "%s/%s", path, name)` leaves. -/
def join_cut (path : Path) (name : Name) : Path := (path ++ SLASH :: name).take (PATH_MAX - 1)

def Tree.lstat (t : Tree) (path : Path) : Option Stat :=
  match t.fs.resolve false path with
  | .found _ i => some (t.stat i)
  | _ => none

/-! ### The entries of a directory -/

def sel_all (_ : Name) : Bool := true
def sel_visible (n : Name) : Bool := n.head? ≠ some 0x2e

def Opts.select (o : Opts) : Name → Bool := if o.a then sel_all else sel_visible

/-- `alphasort` in the locale `C` -/
def by_name (a b : Name) : Bool := a ≤ b

/-- `scandir`: the selected names of a directory in order. -/
def Tree.scandir (t : Tree) (o : Opts) (path : Path) : Option (List Name) :=
  match t.fs.resolve true path with
  | .found _ d =>
      if t.fs.isDir d && t.readable d then some (((t.readdir d).filter o.select).mergeSort by_name)
      else none
  | _ => none

structure Item where
  name : Name
  st : Stat
  deriving DecidableEq

/-- The widths of the columns, and the sum of the blocks. -/
structure Columns where
  inode_w : ℕ
  links_w : ℕ
  owner_w : ℕ
  group_w : ℕ
  size_w : ℕ
  total_blocks : ℕ
  max_name_len : ℕ

def digits_uintmax (x : ℕ) : ℕ :=
  if 10 ≤ x then digits_uintmax (x / 10) + 1 else 1
  termination_by x
  decreasing_by omega

/-- `%u` -/
def decimal (x : ℕ) : List UInt8 := (Nat.toDigits 10 x).map fun c => c.toNat.toUInt8

def owner_str (names : Names) (uid : ℕ) (numeric : Bool) : List UInt8 :=
  if numeric then decimal uid else (names.getpwuid uid).getD (decimal uid)

def group_str (names : Names) (gid : ℕ) (numeric : Bool) : List UInt8 :=
  if numeric then decimal gid else (names.getgrgid gid).getD (decimal gid)

/-- One item more. -/
def Columns.add (names : Names) (o : Opts) (c : Columns) (it : Item) : Columns where
  max_name_len := max c.max_name_len it.name.length
  inode_w := if o.i then max c.inode_w (digits_uintmax it.st.st_ino) else c.inode_w
  links_w := if o.l then max c.links_w (digits_uintmax it.st.st_nlink) else c.links_w
  owner_w := if o.l then max c.owner_w (owner_str names it.st.st_uid o.n).length else c.owner_w
  group_w := if o.l then max c.group_w (group_str names it.st.st_gid o.n).length else c.group_w
  size_w := if o.l then max c.size_w (digits_uintmax it.st.st_size) else c.size_w
  total_blocks := if o.l then c.total_blocks + it.st.st_blocks else c.total_blocks

/-- What `lstat` says about the joined path of each name, if it says anything. -/
def Tree.items (t : Tree) (path : Path) (names : List Name) : List Item :=
  names.filterMap fun n => (t.lstat (join_cut path n)).map (Item.mk n)

/-- The names that are reported, the items and the columns; `none` if the
    directory cannot be read. -/
def scandir_items (t : Tree) (names : Names) (o : Opts) (path : Path) :
    Option (List Name × List Item × Columns) :=
  (t.scandir o path).map fun nl =>
    (nl.filter fun n => (t.lstat (join_cut path n)).isNone, t.items path nl,
      (t.items path nl).foldl (Columns.add names o) ⟨0, 0, 0, 0, 0, 0, 0⟩)

/-! ### `list_dir` -/

/-- What is printed: a name that `lstat` fails for, a directory that cannot be
    read, a listing, and the line between two listings. -/
inductive Event where
  | noStat (name : Name)
  | cannotOpen (path : Path)
  | listing (path : Path) (header : Bool) (items : List Item) (columns : Columns)
  | newline

/-- A directory to be listed, and not `.` or `..` -/
def Item.descends (it : Item) : Bool :=
  S_ISDIR it.st.st_mode && !S_ISLNK it.st.st_mode && it.name ≠ DOT && it.name ≠ DOTDOT

/-- A loop that prints something for each element, unless a call does not return. -/
def for_each {α β : Type*} (f : α → Option (List β)) : List α → Option (List β)
  | [] => some []
  | x :: xs =>
      match f x, for_each f xs with
      | some out, some rest => some (out ++ rest)
      | _, _ => none

def list_dir (t : Tree) (names : Names) (o : Opts) : ℕ → Path → Bool → Option (List Event)
  | 0, _, _ => none
  | fuel + 1, path, header =>
      match scandir_items t names o path with
      | none => some [.cannotOpen path]
      | some (failed, items, columns) =>
          let shown := failed.map .noStat ++ [.listing path header items columns]
          if o.R then
            (for_each (fun it : Item => (list_dir t names o fuel (join_cut path it.name) true).map
              (.newline :: ·)) (items.filter Item.descends)).map (shown ++ ·)
          else some shown

end Myls
