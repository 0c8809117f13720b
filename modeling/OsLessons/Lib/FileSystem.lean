import Mathlib

/-! # Files, directories and links

  A file system in which a name can lead to a file in several ways: hard links
  (two entries with one inode number), symbolic links, and different spellings
  of a path. A file that has lost its last name keeps its inode.

  Resolution looks at directories and symbolic links only (`Look`), so that
  it is the same after a write (`resolve_setData`).
-/

namespace FileSystem

abbrev Name := List UInt8
abbrev Path := List UInt8
abbrev Ino := ℕ

inductive Errno where
  | ENOENT | ENOTDIR | EISDIR | EACCES | ELOOP | ENAMETOOLONG | EINTR
  | other (code : ℕ)
  deriving DecidableEq

/-- What an inode number stands for. A special file is a device, a FIFO or a
    socket, with what can be read from it. -/
inductive Node where
  | free
  | reg (data : List UInt8)
  | special (data : List UInt8)
  | symlink (target : Path)
  | dir (search : Bool) (entries : Name → Option Ino)

/-- What resolution sees of an inode. -/
inductive Look where
  | dir (search : Bool) (entries : Name → Option Ino)
  | link (target : Path)
  | leaf

def Node.look : Node → Look
  | .dir search entries => .dir search entries
  | .symlink target => .link target
  | _ => .leaf

/-- A file system and the working directory of a process. -/
@[ext] structure FS where
  node : Ino → Node
  next : Ino
  root : Ino
  cwd : Ino
  /-- numbers from `next` on are not in use -/
  unused : ∀ i, next ≤ i → node i = .free
  /-- entries lead to numbers in use -/
  named : ∀ d search entries n i, node d = .dir search entries → entries n = some i → i < next

/-! ### Resolution -/

def SLASH : UInt8 := 0x2f

/-- The components of a path; an empty one stays where it is. -/
def components (path : Path) : List Name := path.splitOn SLASH

/-- Where a path leads: to an inode, with the entry that was followed last; to
    an entry that is missing in a directory; or nowhere. -/
inductive Res where
  | found (entry : Option (Ino × Name)) (i : Ino)
  | missing (d : Ino) (n : Name)
  | error (e : Errno)

/-- Follow components from `cur` on; `jump` goes on behind a symbolic link. The
    last component is not followed if it is a link and `follow` is not set. -/
def walk (look : Ino → Look) (root : Ino) (follow : Bool) (jump : Ino → List Name → Res) :
    Ino → Option (Ino × Name) → List Name → Res
  | cur, entry, [] => .found entry cur
  | cur, _, c :: cs =>
      match look cur with
      | .dir search entries =>
          if search = false then .error .EACCES
          else if c = [] then walk look root follow jump cur none cs
          else if 255 < c.length then .error .ENAMETOOLONG
          else
            match entries c with
            | none => if cs = [] then .missing cur c else .error .ENOENT
            | some i =>
                match look i with
                | .link target =>
                    if cs = [] ∧ follow = false then .found (some (cur, c)) i
                    else if target = [] then .error .ENOENT
                    else jump (if target.head? = some SLASH then root else cur)
                      (components target ++ cs)
                | _ => walk look root follow jump i (some (cur, c)) cs
      | _ => .error .ENOTDIR

/-- Follow components through fewer than `links` symbolic links. -/
def follow_links (look : Ino → Look) (root : Ino) (follow : Bool) :
    ℕ → Ino → List Name → Res
  | 0, _, _ => .error .ELOOP
  | links + 1, cur, cs =>
      walk look root follow (follow_links look root follow links) cur none cs

def PATH_MAX : ℕ := 4096
def MAXSYMLINKS : ℕ := 40

namespace FS

def look (fs : FS) (i : Ino) : Look := (fs.node i).look

def resolve (fs : FS) (follow : Bool) (path : Path) : Res :=
  if path = [] then .error .ENOENT
  else if PATH_MAX ≤ path.length then .error .ENAMETOOLONG
  else follow_links fs.look fs.root follow (MAXSYMLINKS + 1)
    (if path.head? = some SLASH then fs.root else fs.cwd) (components path)

/-! ### Changes -/

/-- What a regular or special file holds. -/
def data (fs : FS) (i : Ino) : List UInt8 :=
  match fs.node i with
  | .reg data => data
  | .special data => data
  | _ => []

def isReg (fs : FS) (i : Ino) : Bool :=
  match fs.node i with
  | .reg _ => true
  | _ => false

def isDir (fs : FS) (i : Ino) : Bool :=
  match fs.node i with
  | .dir _ _ => true
  | _ => false

/-- Replace the content of a regular file. -/
def setData (fs : FS) (i : Ino) (data : List UInt8) : FS :=
  match h : fs.node i with
  | .reg _ =>
      { fs with
        node := Function.update fs.node i (.reg data)
        unused := fun j hj => by
          rcases eq_or_ne j i with rfl | hne
          · rw [fs.unused j hj] at h
            cases h
          · rw [Function.update_of_ne hne, fs.unused j hj]
        named := fun d search entries n j hd => by
          rcases eq_or_ne d i with rfl | hne
          · rw [Function.update_self] at hd
            cases hd
          · rw [Function.update_of_ne hne] at hd
            exact fs.named d search entries n j hd }
  | _ => fs

/-- Make the entry `n` of the directory `d` lead to a new empty file. -/
def put (fs : FS) (d : Ino) (n : Name) : FS :=
  match h : fs.node d with
  | .dir search entries =>
      { fs with
        node := Function.update
          (Function.update fs.node d (.dir search (Function.update entries n (some fs.next))))
          fs.next (.reg [])
        next := fs.next + 1
        unused := fun j hj => by
          have hfree : fs.node j = .free := fs.unused j (Nat.le_of_succ_le hj)
          have hd : j ≠ d := fun heq => by
            rw [← heq, hfree] at h
            cases h
          have hnext : j ≠ fs.next := (Nat.lt_of_succ_le hj).ne'
          rw [Function.update_of_ne hnext, Function.update_of_ne hd, hfree]
        named := fun d' search' entries' n' j hd hj => by
          rcases eq_or_ne d' fs.next with rfl | hnext
          · rw [Function.update_self] at hd
            cases hd
          rw [Function.update_of_ne hnext] at hd
          rcases eq_or_ne d' d with rfl | hne
          · rw [Function.update_self] at hd
            cases hd
            rcases eq_or_ne n' n with rfl | hn
            · rw [Function.update_self] at hj
              cases hj
              exact Nat.lt_succ_self _
            · rw [Function.update_of_ne hn] at hj
              exact Nat.lt_succ_of_lt (fs.named _ _ _ _ _ h hj)
          · rw [Function.update_of_ne hne] at hd
            exact Nat.lt_succ_of_lt (fs.named _ _ _ _ _ hd hj) }
  | _ => fs

/-- Remove the entry `n` of the directory `d`. -/
def remove (fs : FS) (d : Ino) (n : Name) : FS :=
  match h : fs.node d with
  | .dir search entries =>
      { fs with
        node := Function.update fs.node d (.dir search (Function.update entries n none))
        unused := fun j hj => by
          have hd : j ≠ d := fun heq => by
            rw [← heq, fs.unused j hj] at h
            cases h
          rw [Function.update_of_ne hd, fs.unused j hj]
        named := fun d' search' entries' n' j hd hj => by
          rcases eq_or_ne d' d with rfl | hne
          · rw [Function.update_self] at hd
            cases hd
            rcases eq_or_ne n' n with rfl | hn
            · rw [Function.update_self] at hj
              cases hj
            · rw [Function.update_of_ne hn] at hj
              exact fs.named _ _ _ _ _ h hj
          · rw [Function.update_of_ne hne] at hd
            exact fs.named _ _ _ _ _ hd hj }
  | _ => fs

/-! ### Calls -/

/-- `stat`: the inode that a path leads to. -/
def stat (fs : FS) (path : Path) : Option Ino :=
  match fs.resolve true path with
  | .found _ i => some i
  | _ => none

/-- `open(path, O_RDONLY)` -/
def open_read (fs : FS) (path : Path) : Except Errno Ino :=
  match fs.resolve true path with
  | .found _ i => .ok i
  | .missing _ _ => .error .ENOENT
  | .error e => .error e

/-- `open(path, O_CREAT | O_TRUNC | …)` for writing: the inode and the files then.
    Where the name is missing and has a slash behind it, the error is `EISDIR` on
    Linux and `ENOENT` here. -/
def open_trunc (fs : FS) (path : Path) : Except Errno (Ino × FS) :=
  match fs.resolve true path with
  | .found _ i => if fs.isDir i then .error .EISDIR else .ok (i, fs.setData i [])
  | .missing d n => .ok (fs.next, fs.put d n)
  | .error e => .error e

/-- `unlink` -/
def unlink (fs : FS) (path : Path) : Except Errno FS :=
  match fs.resolve false path with
  | .found (some (d, n)) i => if fs.isDir i then .error .EISDIR else .ok (fs.remove d n)
  | .found none _ => .error .EISDIR
  | .missing _ _ => .error .ENOENT
  | .error e => .error e

end FS

/-- `data` with `bytes` written at `pos`; a gap is filled with zeros. -/
def writeAt (data : List UInt8) (pos : ℕ) (bytes : List UInt8) : List UInt8 :=
  data.takeD pos 0 ++ bytes ++ data.drop (pos + bytes.length)

/-! ### What changes of an inode -/

namespace FS

variable {fs : FS} {i j d : Ino} {n : Name} {search : Bool} {entries : Name → Option Ino}
  {data : List UInt8}

theorem setData_of_reg {old : List UInt8} (h : fs.node i = .reg old) :
    (fs.setData i data).node = Function.update fs.node i (.reg data) := by
  unfold setData
  split
  · rfl
  · next hne => exact absurd h (hne old)

theorem setData_of_not_reg (h : fs.isReg i = false) : fs.setData i data = fs := by
  unfold setData
  split
  · next old hreg =>
    rw [isReg, hreg] at h
    cases h
  · rfl

@[simp] theorem setData_next : (fs.setData i data).next = fs.next := by
  unfold setData
  split <;> rfl

@[simp] theorem setData_root : (fs.setData i data).root = fs.root := by
  unfold setData
  split <;> rfl

@[simp] theorem setData_cwd : (fs.setData i data).cwd = fs.cwd := by
  unfold setData
  split <;> rfl

theorem node_setData_ne (h : j ≠ i) : (fs.setData i data).node j = fs.node j := by
  unfold setData
  split
  · exact Function.update_of_ne h ..
  · rfl

theorem exists_of_isReg (h : fs.isReg i) : ∃ old, fs.node i = .reg old := by
  unfold isReg at h
  split at h
  · next old hnode => exact ⟨old, hnode⟩
  · cases h

/-- The last write counts. -/
@[simp] theorem setData_setData (fs : FS) (i : Ino) (data data' : List UInt8) :
    (fs.setData i data).setData i data' = fs.setData i data' := by
  cases hreg : fs.isReg i with
  | false => rw [setData_of_not_reg hreg, setData_of_not_reg hreg]
  | true =>
    obtain ⟨old, hnode⟩ := exists_of_isReg hreg
    have hnode' : (fs.setData i data).node i = .reg data := by
      rw [setData_of_reg hnode, Function.update_self]
    ext1
    · rw [setData_of_reg hnode', setData_of_reg hnode, setData_of_reg hnode,
        Function.update_idem]
    all_goals simp

theorem node_setData_of_isReg (h : fs.isReg i) (data : List UInt8) :
    (fs.setData i data).node i = .reg data := by
  obtain ⟨old, hnode⟩ := exists_of_isReg h
  rw [setData_of_reg hnode, Function.update_self]

theorem data_setData_self (h : fs.isReg i) : (fs.setData i data).data i = data := by
  obtain ⟨old, hnode⟩ := exists_of_isReg h
  rw [FS.data, setData_of_reg hnode, Function.update_self]

theorem isReg_setData : (fs.setData i data).isReg j = fs.isReg j := by
  cases hreg : fs.isReg i with
  | false => rw [setData_of_not_reg hreg]
  | true =>
    obtain ⟨old, hnode⟩ := exists_of_isReg hreg
    rcases eq_or_ne j i with rfl | hne
    · rw [hreg, isReg, setData_of_reg hnode, Function.update_self]
    · rw [isReg, isReg, node_setData_ne hne]

/-- A write does not show in any resolution. -/
@[simp] theorem look_setData (fs : FS) (i : Ino) (data : List UInt8) :
    (fs.setData i data).look = fs.look := by
  funext j
  cases hreg : fs.isReg i with
  | false => rw [setData_of_not_reg hreg]
  | true =>
    obtain ⟨old, hnode⟩ := exists_of_isReg hreg
    rcases eq_or_ne j i with rfl | hne
    · rw [look, look, setData_of_reg hnode, Function.update_self, hnode]
      rfl
    · rw [look, look, node_setData_ne hne]

@[simp] theorem resolve_setData (fs : FS) (i : Ino) (data : List UInt8) :
    (fs.setData i data).resolve = fs.resolve := by
  funext follow path
  simp only [resolve, look_setData, setData_root, setData_cwd]

theorem node_put (h : fs.node d = .dir search entries) :
    (fs.put d n).node = Function.update
      (Function.update fs.node d (.dir search (Function.update entries n (some fs.next))))
      fs.next (.reg []) := by
  unfold put
  split
  · next search' entries' hdir =>
    rw [h] at hdir
    cases hdir
    rfl
  · next hne => exact absurd h (hne search entries)

theorem node_remove (h : fs.node d = .dir search entries) :
    (fs.remove d n).node =
      Function.update fs.node d (.dir search (Function.update entries n none)) := by
  unfold remove
  split
  · next search' entries' hdir =>
    rw [h] at hdir
    cases hdir
    rfl
  · next hne => exact absurd h (hne search entries)

/-- A directory is in use. -/
theorem lt_next_of_dir (h : fs.node d = .dir search entries) : d < fs.next := by
  by_contra hle
  rw [fs.unused d (not_lt.mp hle)] at h
  cases h

/-! ### Small file systems -/

/-- A regular file, a symbolic link, or a directory with its entries. -/
inductive Plan where
  | file (data : List UInt8)
  | link (target : Path)
  | folder (entries : List (Name × Ino))

/-- Entries to numbers that are not in use are left out. -/
def Plan.node (bound : ℕ) : Plan → Node
  | .file data => .reg data
  | .link target => .symlink target
  | .folder entries => .dir true fun n => (entries.lookup n).filter (· < bound)

/-- The numbers are the positions in the list; 0 is the root and the working directory. -/
def ofPlans (plans : List Plan) : FS where
  node i := (plans[i]?).elim .free (Plan.node plans.length)
  next := plans.length
  root := 0
  cwd := 0
  unused i hi := by rw [List.getElem?_eq_none hi, Option.elim_none]
  named d search entries n i hd hi := by
    cases hplan : plans[d]? with
    | none =>
      rw [hplan] at hd
      cases hd
    | some plan =>
      rw [hplan, Option.elim_some] at hd
      cases plan with
      | file data => cases hd
      | link target => cases hd
      | folder es =>
        cases hd
        exact of_decide_eq_true (Option.filter_eq_some_iff.mp hi).2

end FS

end FileSystem
