import OsLessons.Lib.Compaction
import OsLessons.Myls.Output

/-! # myls: the long listing

  `scandir_items` asks `lstat` about one entry after the other, leaves a hole
  where it fails, and raises the widths on its way; then it moves the items
  together (`read_items`). `print_long_line` prints an item in these widths. The
  fields of a line stand at the same offsets for all items.
-/

namespace Myls

open FileSystem

/-! ### Reading the entries -/

/-- `struct dirent`, and what `lstat` says about it: nothing if it fails. -/
structure Entry where
  d_name : Name
  st : Option Stat

/-- What is to be listed of an entry. -/
def Entry.item (e : Entry) : Option Item := e.st.map (Item.mk e.d_name)

/-- `items`, with a hole where `name` is `NULL`; the widths; and the names
    reported on the standard error. -/
structure Scan where
  items : List (Option Item)
  columns : Columns
  reported : List Name

/-- Entry number `i`. -/
def scan_entry (names : Names) (o : Opts) (s : Scan) (i : ℕ) (e : Entry) : Scan :=
  match e.st with
  | none => { s with items := s.items.set i none, reported := s.reported ++ [e.d_name] }
  | some st =>
      { s with
        items := s.items.set i (some ⟨e.d_name, st⟩)
        columns := s.columns.add names o ⟨e.d_name, st⟩ }

/-- The loop from entry number `i` on. -/
def scan_entries (names : Names) (o : Opts) : Scan → ℕ → List Entry → Scan
  | s, _, [] => s
  | s, i, e :: nl => scan_entries names o (scan_entry names o s i e) (i + 1) nl

/-- `calloc` -/
def calloc (n : ℕ) : Scan := ⟨List.replicate n none, ⟨0, 0, 0, 0, 0, 0, 0⟩, []⟩

/-- Throws out the elements with `name == NULL`: the array, and what has become
    of `n`. -/
def compact (items : List (Option Item)) : List (Option Item) × ℕ :=
  Compaction.run Option.isSome items

/-- What `scandir_items` gives back: the array and the number of items in it, and
    the widths. -/
structure Listed where
  items : List (Option Item)
  n : ℕ
  columns : Columns
  reported : List Name

/-- The part of `scandir_items` behind `scandir`. -/
def read_items (names : Names) (o : Opts) (nl : List Entry) : Listed :=
  let s := scan_entries names o (calloc nl.length) 0 nl
  { items := (compact s.items).1
    n := (compact s.items).2
    columns := s.columns
    reported := s.reported }

/-- What the loop has made of the first entries. -/
structure Scanned (names : Names) (o : Opts) (n : ℕ) (nl : List Entry) (s : Scan) : Prop where
  items : s.items = nl.map Entry.item ++ List.replicate (n - nl.length) none
  columns : s.columns = Columns.of names o (nl.filterMap Entry.item)
  reported : s.reported = (nl.filter fun e => e.st.isNone).map Entry.d_name

variable {names : Names} {o : Opts} {n : ℕ} {nl : List Entry} {s : Scan} {e : Entry}

/-- The slot behind the first entries is the next one to be written. -/
theorem set_slot (h : nl.length < n) (x : Option Item) :
    (nl.map Entry.item ++ List.replicate (n - nl.length) none).set nl.length x =
      nl.map Entry.item ++ [x] ++ List.replicate (n - (nl.length + 1)) none := by
  have hsucc : n - nl.length = (n - (nl.length + 1)) + 1 := by omega
  rw [hsucc, List.replicate_succ, List.append_assoc,
    List.set_append_right _ _ (by rw [List.length_map]), List.length_map, Nat.sub_self]
  rfl

theorem Scanned.step (h : Scanned names o n nl s) (hn : nl.length < n) (e : Entry) :
    Scanned names o n (nl ++ [e]) (scan_entry names o s nl.length e) := by
  obtain ⟨d_name, st⟩ := e
  have hlen : (nl ++ [Entry.mk d_name st]).length = nl.length + 1 := List.length_append
  cases st with
  | none =>
    refine ⟨?_, ?_, ?_⟩
    · show s.items.set nl.length none = _
      rw [h.items, set_slot hn, hlen, List.map_append]
      rfl
    · show s.columns = _
      rw [h.columns, List.filterMap_append, List.filterMap_cons_none rfl, List.filterMap_nil,
        List.append_nil]
    · show s.reported ++ [d_name] = _
      rw [h.reported, List.filter_append, List.map_append]
      rfl
  | some st =>
    refine ⟨?_, ?_, ?_⟩
    · show s.items.set nl.length (some ⟨d_name, st⟩) = _
      rw [h.items, set_slot hn, hlen, List.map_append]
      rfl
    · show s.columns.add names o ⟨d_name, st⟩ = _
      rw [h.columns, List.filterMap_append, Columns.of, Columns.of, List.foldl_append]
      rfl
    · show s.reported = _
      rw [h.reported, List.filter_append, List.map_append, List.filter_cons_of_neg Bool.false_ne_true,
        List.filter_nil, List.map_nil, List.append_nil]

theorem scanned_from (rest : List Entry) (h : Scanned names o n nl s)
    (hn : nl.length + rest.length ≤ n) :
    Scanned names o n (nl ++ rest) (scan_entries names o s nl.length rest) := by
  induction rest generalizing nl s with
  | nil =>
    rw [List.append_nil]
    exact h
  | cons e rest ih =>
    rw [List.length_cons] at hn
    have hstep := ih (h.step (by omega) e) (by rw [List.length_append, List.length_singleton]; omega)
    rw [List.append_assoc, List.length_append] at hstep
    exact hstep

theorem scanned (names : Names) (o : Opts) (nl : List Entry) :
    Scanned names o nl.length nl (scan_entries names o (calloc nl.length) 0 nl) := by
  have hstart : Scanned names o nl.length [] (calloc nl.length) := ⟨rfl, rfl, rfl⟩
  exact scanned_from nl hstart (by rw [List.length_nil, Nat.zero_add])

theorem filter_isSome (nl : List Entry) :
    (nl.map Entry.item).filter Option.isSome = (nl.filterMap Entry.item).map some := by
  induction nl with
  | nil => rfl
  | cons e nl ih =>
    cases he : e.item with
    | none =>
      rw [List.map_cons, he, List.filter_cons_of_neg Bool.false_ne_true, List.filterMap_cons_none he, ih]
    | some it =>
      rw [List.map_cons, he, List.filter_cons_of_pos rfl, List.filterMap_cons_some he, ih]
      rfl

/-- The items that are returned are those that `lstat` knows, in their order. -/
theorem read_items_take (names : Names) (o : Opts) (nl : List Entry) :
    (read_items names o nl).items.take (read_items names o nl).n =
      (nl.filterMap Entry.item).map some := by
  have hitems := (scanned names o nl).items
  rw [Nat.sub_self, List.replicate_zero, List.append_nil] at hitems
  show (compact _).1.take (compact _).2 = _
  rw [compact, Compaction.run_take, hitems, filter_isSome]

theorem read_items_columns (names : Names) (o : Opts) (nl : List Entry) :
    (read_items names o nl).columns = Columns.of names o (nl.filterMap Entry.item) :=
  (scanned names o nl).columns

/-- What the loop does is what `scandir_items` says of the directories of a tree. -/
theorem scandir_items_eq (t : Tree) (names : Names) (o : Opts) (path : Path) :
    scandir_items t names o path = (t.scandir o path).map fun nl =>
      let r := read_items names o (nl.map fun n => ⟨n, t.lstat (join_cut path n)⟩)
      (r.reported, (r.items.take r.n).reduceOption, r.columns) := by
  unfold scandir_items
  congr 1
  funext nl
  have hitems : (nl.map fun n => Entry.mk n (t.lstat (join_cut path n))).filterMap Entry.item =
      t.items path nl := List.filterMap_map
  have hreported := (scanned names o
    (nl.map fun n => Entry.mk n (t.lstat (join_cut path n)))).reported
  rw [List.filter_map, List.map_map] at hreported
  simp only [read_items_take, read_items_columns, hitems]
  refine Prod.ext ?_ (Prod.ext ?_ rfl)
  · refine Eq.trans ?_ hreported.symm
    exact (List.map_id _).symm
  · show t.items path nl = ((t.items path nl).map some).reduceOption
    rw [List.reduceOption, List.filterMap_map]
    exact List.filterMap_some.symm

/-! ### Lines -/

/-- `tbuf` is what `format_time` makes of `st_mtime`. -/
def print_long_line (names : Names) (o : Opts) (color : ℕ) (tty : Bool) (format_time : ℕ → List UInt8)
    (c : Columns) (it : Item) : List Put :=
  print_inode o c.inode_w it ++
    .text (chars (mode_to_str it.st.st_mode) ++ [BLANK] ++
      ju c.links_w it.st.st_nlink ++ [BLANK] ++
      minus_s c.owner_w (owner_str names it.st.st_uid o.n) ++ [BLANK] ++
      minus_s c.group_w (group_str names it.st.st_gid o.n) ++ [BLANK] ++
      ju c.size_w it.st.st_size ++ [BLANK] ++ format_time it.st.st_mtime ++ [BLANK]) ::
    print_name_colored color tty it.name it.st.st_mode ++ [.text [NEWLINE]]

/-- The fields in front of the time. -/
inductive Field where
  | inode
  | mode
  | links
  | owner
  | group
  | size
  deriving DecidableEq

/-- The fields of a line, in their order. -/
def fields (o : Opts) : List Field :=
  (if o.i then [Field.inode] else []) ++
    [Field.mode, Field.links, Field.owner, Field.group, Field.size]

/-- What a field says, without blanks. -/
def Field.text (names : Names) (o : Opts) (it : Item) : Field → List UInt8
  | .inode => decimal it.st.st_ino
  | .mode => chars (mode_to_str it.st.st_mode)
  | .links => decimal it.st.st_nlink
  | .owner => owner_str names it.st.st_uid o.n
  | .group => group_str names it.st.st_gid o.n
  | .size => decimal it.st.st_size

def Field.width (c : Columns) : Field → ℕ
  | .inode => c.inode_w
  | .mode => 10
  | .links => c.links_w
  | .owner => c.owner_w
  | .group => c.group_w
  | .size => c.size_w

/-- A field with its blanks: numbers at the right, names at the left. -/
def Field.printed (names : Names) (o : Opts) (c : Columns) (it : Item) : Field → List UInt8
  | .inode => ju c.inode_w it.st.st_ino
  | .mode => chars (mode_to_str it.st.st_mode)
  | .links => ju c.links_w it.st.st_nlink
  | .owner => minus_s c.owner_w (owner_str names it.st.st_uid o.n)
  | .group => minus_s c.group_w (group_str names it.st.st_gid o.n)
  | .size => ju c.size_w it.st.st_size

/-- Where a field begins: behind the fields in front of it and a blank for each. -/
def Field.offset (o : Opts) (c : Columns) (f : Field) : ℕ :=
  (((fields o).takeWhile (· ≠ f)).map fun g => g.width c + 1).sum

variable {items : List Item} {it : Item} {f : Field}

theorem inode_shown (h : Field.inode ∈ fields o) : o.i = true := by
  by_contra hi
  rw [fields, if_neg hi] at h
  exact absurd h (by decide)

/-- In the long mode every width is the length of the longest text of its field. -/
theorem Field.widest (hl : o.l = true) (hf : f ∈ fields o) (hmode : f ≠ .mode)
    (items : List Item) :
    Widest (fun it => (f.text names o it).length) items (f.width (Columns.of names o items)) := by
  cases f with
  | inode =>
    refine widest_of Columns.inode_w rfl (fun c it => ?_) items
    show (if o.i then _ else _) = _
    rw [if_pos (inode_shown hf), Field.text, length_decimal]
  | mode => exact absurd rfl hmode
  | links =>
    refine widest_of Columns.links_w rfl (fun c it => ?_) items
    show (if o.l then _ else _) = _
    rw [if_pos hl, Field.text, length_decimal]
  | owner =>
    refine widest_of Columns.owner_w rfl (fun c it => ?_) items
    exact if_pos hl
  | group =>
    refine widest_of Columns.group_w rfl (fun c it => ?_) items
    exact if_pos hl
  | size =>
    refine widest_of Columns.size_w rfl (fun c it => ?_) items
    show (if o.l then _ else _) = _
    rw [if_pos hl, Field.text, length_decimal]

/-- No text is longer than its field. -/
theorem Field.fits (hl : o.l = true) (hf : f ∈ fields o) (hit : it ∈ items) :
    (f.text names o it).length ≤ f.width (Columns.of names o items) := by
  by_cases hmode : f = .mode
  · rw [hmode, Field.text, length_mode_to_str]
    exact le_rfl
  · exact (Field.widest hl hf hmode items).le it hit

/-- A text that fits is printed in the width of its field. -/
theorem Field.length_printed {c : Columns} (h : (f.text names o it).length ≤ f.width c) :
    (f.printed names o c it).length = f.width c := by
  cases f with
  | inode | links | size =>
    rw [Field.text, length_decimal] at h
    exact length_ju h
  | mode =>
    rw [Field.printed, length_mode_to_str]
    rfl
  | owner | group => exact length_minus_s h

/-- A line is its fields, each with a blank behind it, and the time and the name. -/
theorem bytes_print_long_line (names : Names) (o : Opts) (color : ℕ) (tty : Bool)
    (format_time : ℕ → List UInt8) (c : Columns) (it : Item) :
    ∃ rest, bytes (print_long_line names o color tty format_time c it) =
      (fields o).flatMap (fun f => f.printed names o c it ++ [BLANK]) ++ rest := by
  refine ⟨format_time it.st.st_mtime ++ [BLANK] ++
    bytes (print_name_colored color tty it.name it.st.st_mode ++ [.text [NEWLINE]]), ?_⟩
  cases hi : o.i with
  | true =>
    simp [print_long_line, print_inode, fields, hi, Put.bytes, Field.printed, List.flatMap_cons, List.append_assoc]
  | false =>
    simp [print_long_line, print_inode, fields, hi, Put.bytes, Field.printed, List.flatMap_cons, List.append_assoc]

/-- The fields in front of `f`, and those behind it. -/
theorem split_fields {fs : List Field} (hf : f ∈ fs) :
    ∃ behind, fs = fs.takeWhile (· ≠ f) ++ f :: behind := by
  obtain ⟨front, behind, rfl, hfront⟩ := List.eq_append_cons_of_mem hf
  have hall : ∀ g ∈ front, decide (g ≠ f) = true := fun g hg =>
    decide_eq_true fun heq => hfront (heq ▸ hg)
  have hstop : (f :: behind).takeWhile (fun g => decide (g ≠ f)) = [] :=
    List.takeWhile_cons_of_neg (by simp)
  rw [List.takeWhile_append_of_pos hall, hstop, List.append_nil]
  exact ⟨behind, rfl⟩

/-- A field begins at its offset. -/
theorem Field.at_offset (hl : o.l = true) (hf : f ∈ fields o) (hit : it ∈ items) (color : ℕ)
    (tty : Bool) (format_time : ℕ → List UInt8) :
    ∃ front behind,
      bytes (print_long_line names o color tty format_time (Columns.of names o items) it) =
        front ++ f.printed names o (Columns.of names o items) it ++ behind ∧
      front.length = f.offset o (Columns.of names o items) := by
  obtain ⟨rest, hrest⟩ := bytes_print_long_line names o color tty format_time
    (Columns.of names o items) it
  obtain ⟨after, hsplit⟩ := split_fields hf
  rw [hsplit, List.flatMap_append, List.flatMap_cons] at hrest
  refine ⟨((fields o).takeWhile (· ≠ f)).flatMap
      (fun g => g.printed names o (Columns.of names o items) it ++ [BLANK]),
    [BLANK] ++ after.flatMap (fun g => g.printed names o (Columns.of names o items) it ++ [BLANK])
      ++ rest, ?_, ?_⟩
  · rw [hrest]
    simp only [List.append_assoc]
  · rw [List.length_flatMap, Field.offset]
    congr 1
    refine List.map_congr_left fun g hg => ?_
    have hshown : g ∈ fields o := (List.takeWhile_sublist _).subset hg
    rw [List.length_append, Field.length_printed (Field.fits hl hshown hit)]
    rfl

/-- **Long listing**: the entries that `lstat` knows are returned, in their
    order and each with its own data. In their lines every field stands at one
    offset and in one width, which holds the longest of its texts and is not
    larger. -/
theorem long_listing (names : Names) (o : Opts) (hl : o.l = true) (nl : List Entry) (color : ℕ)
    (tty : Bool) (format_time : ℕ → List UInt8) :
    (read_items names o nl).items.take (read_items names o nl).n =
      (nl.filterMap Entry.item).map some ∧
    ∃ offset : Field → ℕ, ∀ f ∈ fields o,
      (∀ it ∈ nl.filterMap Entry.item,
        (f.text names o it).length ≤ f.width (read_items names o nl).columns ∧
        (f.printed names o (read_items names o nl).columns it).length =
          f.width (read_items names o nl).columns ∧
        ∃ front behind,
          bytes (print_long_line names o color tty format_time (read_items names o nl).columns it) =
            front ++ f.printed names o (read_items names o nl).columns it ++ behind ∧
          front.length = offset f) ∧
      (nl.filterMap Entry.item ≠ [] → ∃ it ∈ nl.filterMap Entry.item,
        (f.text names o it).length = f.width (read_items names o nl).columns) := by
  rw [read_items_columns]
  refine ⟨read_items_take names o nl,
    fun f => f.offset o (Columns.of names o (nl.filterMap Entry.item)),
    fun f hf => ⟨fun it hit => ?_, fun hne => ?_⟩⟩
  · have hfits : (f.text names o it).length ≤ _ := Field.fits hl hf hit
    exact ⟨hfits, Field.length_printed hfits, Field.at_offset hl hf hit color tty format_time⟩
  · by_cases hmode : f = .mode
    · obtain ⟨it, hit⟩ := List.exists_mem_of_ne_nil _ hne
      refine ⟨it, hit, ?_⟩
      rw [hmode, Field.text, length_mode_to_str]
      rfl
    · exact (Field.widest hl hf hmode _).attained hne

/-- A file, an entry that is gone, and a directory. -/
def threeEntries : List Entry :=
  [⟨ascii "a", some ⟨7, 0o100644, 1, 0, 0, 5, 8, 0⟩⟩, ⟨ascii "b", none⟩,
    ⟨ascii "dir", some ⟨123, 0o040755, 12, 1000, 0, 4096, 8, 0⟩⟩]

/-- `-l -i`, and one user. -/
def longOpts : Opts := ⟨true, true, false, false, false⟩
def oneUser : Names := ⟨fun uid => if uid = 0 then some (ascii "root") else none, fun _ => none⟩

theorem long_listing_three :
    (read_items oneUser longOpts threeEntries).n = 2 ∧
    (read_items oneUser longOpts threeEntries).items.take
      (read_items oneUser longOpts threeEntries).n = (threeEntries.filterMap Entry.item).map some ∧
    ∃ offset : Field → ℕ, ∀ f ∈ fields longOpts, ∀ it ∈ threeEntries.filterMap Entry.item,
      ∃ front behind,
        bytes (print_long_line oneUser longOpts 0 true (fun _ => [])
          (read_items oneUser longOpts threeEntries).columns it) =
          front ++ f.printed oneUser longOpts
            (read_items oneUser longOpts threeEntries).columns it ++ behind ∧
        front.length = offset f := by
  obtain ⟨hitems, offset, hall⟩ :=
    long_listing oneUser longOpts rfl threeEntries 0 true fun _ => []
  exact ⟨by decide, hitems, offset, fun f hf it hit => ((hall f hf).1 it hit).2.2⟩

end Myls
