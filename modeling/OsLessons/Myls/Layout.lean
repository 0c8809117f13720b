import OsLessons.Lib.Table
import OsLessons.Myls.Output

/-! # myls: the columns of the short mode

  `print_columns` prints row after row of a table that is filled column by
  column. Its two loops print the rows of `Table.row`, each as a `Table.line`;
  the widths of `scandir_items` leave the gap that `Table.line_cell` asks for.
-/

namespace Myls

open FileSystem

/-! ### The loops -/

def gap : ℕ := 2

/-- `ws` is what `ioctl` says about the terminal: nothing if it fails. -/
def termw (ws : Option ℕ) : ℕ :=
  match ws with
  | some ws_col => if ws_col > 0 then ws_col else 80
  | none => 80

structure Grid where
  cellw : ℕ
  cols : ℕ
  rows : ℕ

def cellw (o : Opts) (inode_w max_name_len : ℕ) : ℕ :=
  let w := (if o.i then inode_w + 1 else 0) + max_name_len + gap
  if w < 1 then 1 else w

def cols (termw cellw : ℕ) : ℕ := if termw / cellw < 1 then 1 else termw / cellw

def grid (o : Opts) (ws : Option ℕ) (n inode_w max_name_len : ℕ) : Grid :=
  let cellw := cellw o inode_w max_name_len
  let cols := cols (termw ws) cellw
  { cellw, cols, rows := (n + cols - 1) / cols }

section loops
variable (o : Opts) (color : ℕ) (tty : Bool) (inode_w : ℕ)

/-- An item, with its inode number in front of it. -/
def put_cell (it : Item) : List Put :=
  print_inode o inode_w it ++ print_name_colored color tty it.name it.st.st_mode

/-- `printed` -/
def printed (it : Item) : ℕ := (if o.i then inode_w + 1 else 0) + it.name.length

/-- The blanks behind item `it` in row `r` and column `c`. -/
def padding (g : Grid) (n r c : ℕ) (it : Item) : List Put :=
  if c < g.cols - 1 then
    if r + (c + 1) * g.rows < n then
      List.replicate (if g.cellw > printed o inode_w it then g.cellw - printed o inode_w it else gap)
        (.text [BLANK])
    else []
  else []

/-- Row `r` from column `c` on; `left` columns are left. -/
def print_row (g : Grid) (items : List Item) (r : ℕ) : ℕ → ℕ → List Put
  | _, 0 => []
  | c, left + 1 =>
      match items[r + c * g.rows]? with
      | none => []
      | some it =>
          put_cell o color tty inode_w it ++ padding o inode_w g items.length r c it ++
            print_row g items r (c + 1) left

def print_columns (ws : Option ℕ) (items : List Item) (max_name_len : ℕ) : List Put :=
  if tty then
    let g := grid o ws items.length inode_w max_name_len
    (List.range g.rows).flatMap fun r =>
      print_row o color tty inode_w g items r 0 g.cols ++ [.text [NEWLINE]]
  else
    items.flatMap fun it => put_cell o color tty inode_w it ++ [.text [NEWLINE]]

end loops

/-! ### A row is a line of the table -/

variable {o : Opts} {color : ℕ} {tty : Bool} {inode_w : ℕ} {g : Grid} {items : List Item} {it : Item}

theorem width_put_cell (h : o.i = true → digits_uintmax it.st.st_ino ≤ inode_w) :
    width (put_cell o color tty inode_w it) = printed o inode_w it := by
  rw [put_cell, width_append, width_print_name_colored, printed, print_inode]
  by_cases hi : o.i = true
  · rw [if_pos hi, if_pos hi]
    congr 1
    show (ju inode_w it.st.st_ino ++ [BLANK]).length + 0 = inode_w + 1
    rw [List.length_append, length_ju (h hi)]
    rfl
  · rw [if_neg hi, if_neg hi]
    rfl

/-- A cell shows the name, with `-i` behind the inode number and a blank. -/
theorem seen_put_cell : seen (put_cell o color tty inode_w it) =
    (if o.i then ju inode_w it.st.st_ino ++ [BLANK] else []) ++ it.name := by
  rw [put_cell, seen_append, seen_print_inode, seen_print_name_colored]

/-- The inode numbers fit their width, and every cell leaves a gap. -/
structure Fits (o : Opts) (inode_w : ℕ) (g : Grid) (items : List Item) : Prop where
  digits : ∀ it ∈ items, o.i = true → digits_uintmax it.st.st_ino ≤ inode_w
  room : ∀ it ∈ items, printed o inode_w it + gap ≤ g.cellw

variable {r c : ℕ}

/-- In front of another cell the blanks fill the cell up. -/
theorem padding_of_next (h : Fits o inode_w g items) (hit : it ∈ items)
    (hnext : c + 1 < (Table.row items g.rows g.cols r).length) :
    padding o inode_w g items.length r c it = List.replicate
      (g.cellw - Table.measure Put.width (put_cell o color tty inode_w it)) (.text [BLANK]) := by
  have hc : c + 1 < g.cols := lt_of_lt_of_le hnext (Table.length_row_le r)
  have hget : items[r + (c + 1) * g.rows]? ≠ none := by
    rw [← Table.getElem?_row hc]
    exact fun hnone => absurd hnext (not_lt.mpr (List.getElem?_eq_none_iff.mp hnone))
  have hlt : r + (c + 1) * g.rows < items.length := by
    by_contra hge
    exact hget (List.getElem?_eq_none (not_lt.mp hge))
  have hroom := h.room it hit
  have hwidth : Table.measure Put.width (put_cell o color tty inode_w it) = printed o inode_w it :=
    width_put_cell (h.digits it hit)
  have hfill : g.cellw > printed o inode_w it := by
    unfold gap at hroom
    omega
  rw [padding, if_pos (Nat.lt_sub_of_add_lt hc), if_pos hlt, if_pos hfill, hwidth]

/-- Behind the last cell there is no padding. -/
theorem padding_of_last (hlast : (Table.row items g.rows g.cols r).length ≤ c + 1) :
    padding o inode_w g items.length r c it = [] := by
  unfold padding
  by_cases hc : c < g.cols - 1
  · have hnone : items[r + (c + 1) * g.rows]? = none := by
      rw [← Table.getElem?_row (Nat.add_lt_of_lt_sub hc)]
      exact List.getElem?_eq_none hlast
    rw [if_pos hc, if_neg (not_lt.mpr (List.getElem?_eq_none_iff.mp hnone))]
  · rw [if_neg hc]

/-- **Inner loop**: it prints a row of the table as a line. -/
theorem print_row_eq (h : Fits o inode_w g items) (r : ℕ) {c left : ℕ} (hleft : c + left = g.cols) :
    print_row o color tty inode_w g items r c left =
      Table.line Put.width (.text [BLANK]) g.cellw
        (((Table.row items g.rows g.cols r).drop c).map (put_cell o color tty inode_w)) := by
  induction left generalizing c with
  | zero =>
    have hlen : (Table.row items g.rows g.cols r).length ≤ c := by
      rw [Nat.add_zero] at hleft
      rw [hleft]
      exact Table.length_row_le r
    rw [List.drop_eq_nil_of_le hlen]
    rfl
  | succ left ih =>
    have hget : (Table.row items g.rows g.cols r)[c]? = items[r + c * g.rows]? :=
      Table.getElem?_row (by omega)
    rw [print_row]
    cases hit : items[r + c * g.rows]? with
    | none =>
      rw [hit, List.getElem?_eq_none_iff] at hget
      rw [List.drop_eq_nil_of_le hget]
      rfl
    | some it =>
      rw [hit] at hget
      obtain ⟨hlt, hval⟩ := List.getElem?_eq_some_iff.mp hget
      have hmem : it ∈ items := List.mem_of_getElem? hit
      rw [List.drop_eq_getElem_cons hlt, hval, ih (by omega), List.map_cons]
      cases hdrop : (Table.row items g.rows g.cols r).drop (c + 1) with
      | nil =>
        show put_cell o color tty inode_w it ++ padding o inode_w g items.length r c it ++ [] = _
        rw [padding_of_last (List.drop_eq_nil_iff.mp hdrop), List.append_nil, List.append_nil]
        rfl
      | cons next rest =>
        have hnext : c + 1 < (Table.row items g.rows g.cols r).length := by
          by_contra hge
          rw [List.drop_eq_nil_of_le (not_lt.mp hge)] at hdrop
          cases hdrop
        show put_cell o color tty inode_w it ++ padding o inode_w g items.length r c it ++ _ = _
        rw [padding_of_next h hmem hnext]
        rfl

/-! ### The layout -/

/-- The grid for the widths that `scandir_items` finds. -/
def layout (names : Names) (o : Opts) (ws : Option ℕ) (items : List Item) : Grid :=
  grid o ws items.length (Columns.of names o items).inode_w (Columns.of names o items).max_name_len

variable (names : Names) (o : Opts) (ws : Option ℕ) (items : List Item)

theorem cellw_eq (inode_w max_name_len : ℕ) :
    cellw o inode_w max_name_len = (if o.i then inode_w + 1 else 0) + max_name_len + gap := by
  have hpos : ¬ (if o.i then inode_w + 1 else 0) + max_name_len + gap < 1 := by
    unfold gap
    omega
  unfold cellw
  rw [if_neg hpos]

theorem fits_layout :
    Fits o (Columns.of names o items).inode_w (layout names o ws items) items := by
  refine ⟨fun it hit hi => ?_, fun it hit => ?_⟩
  · have hwidest : Widest (fun it => digits_uintmax it.st.st_ino) items
        (Columns.of names o items).inode_w :=
      widest_of Columns.inode_w rfl (fun c it => if_pos hi) items
    exact hwidest.le it hit
  · have hwidest : Widest (fun it => it.name.length) items
        (Columns.of names o items).max_name_len :=
      widest_of Columns.max_name_len rfl (fun c it => rfl) items
    have hname := hwidest.le it hit
    show _ ≤ cellw o _ _
    rw [cellw_eq, printed]
    omega

theorem cols_pos (termw cellw : ℕ) : 0 < cols termw cellw := by
  unfold cols
  split <;> omega

/-- The table has a place for every item. -/
theorem length_le_layout :
    items.length ≤ (layout names o ws items).cols * (layout names o ws items).rows := by
  have hpos : 0 < (layout names o ws items).cols := cols_pos _ _
  show _ ≤ _ * ((items.length + (layout names o ws items).cols - 1) / (layout names o ws items).cols)
  have hdiv := Nat.div_add_mod (items.length + (layout names o ws items).cols - 1)
    (layout names o ws items).cols
  have hmod := Nat.mod_lt (items.length + (layout names o ws items).cols - 1) hpos
  omega

/-- Where there is more than one column, all of them have room on the terminal. -/
theorem cols_mul_le (hcols : (layout names o ws items).cols ≠ 1) :
    (layout names o ws items).cols * (layout names o ws items).cellw ≤ termw ws := by
  have hne : cols (termw ws) (layout names o ws items).cellw ≠ 1 := hcols
  show cols (termw ws) (layout names o ws items).cellw * _ ≤ _
  unfold cols at hne ⊢
  split at hne
  · exact absurd rfl hne
  · next hdiv =>
    rw [if_neg hdiv]
    exact Nat.div_mul_le_self _ _

/-- An item as it is printed in its column. -/
def cell (color : ℕ) : Item → List Put :=
  put_cell o color true (Columns.of names o items).inode_w

/-- The cells of a row, and blanks between them. -/
def row_line (color : ℕ) (row : List Item) : List Put :=
  Table.line Put.width (.text [BLANK]) (layout names o ws items).cellw
    (row.map (cell names o items color))

/-- **Columns**: the rows are those of a table that holds every item once, in
    the given order from column to column. In a row every cell begins at its
    multiple of `cellw`, with two blanks in front of it unless it is the first
    one, and shows the item's name, with `-i` behind its inode number; nothing
    follows the last cell, and the row is not longer than the terminal unless
    there is one column only. -/
theorem columns_layout (color : ℕ) :
    ∃ table : List (List Item),
      print_columns o color true (Columns.of names o items).inode_w ws items
        (Columns.of names o items).max_name_len =
          table.flatMap (fun row => row_line names o ws items color row ++ [.text [NEWLINE]]) ∧
      (List.range (layout names o ws items).cols).flatMap
        (fun c => table.filterMap fun row => row[c]?) = items ∧
      ∀ row ∈ table,
        (∀ c it, row[c]? = some it → ∃ front behind,
          row_line names o ws items color row = front ++ cell names o items color it ++ behind ∧
          width front = c * (layout names o ws items).cellw ∧
          (0 < c → [.text [BLANK], .text [BLANK]] <:+ front) ∧
          (c + 1 = row.length → behind = []) ∧
          seen (cell names o items color it) =
            (if o.i then ju (Columns.of names o items).inode_w it.st.st_ino ++ [BLANK] else []) ++
              it.name) ∧
        (width (row_line names o ws items color row) ≤ termw ws ∨
          (layout names o ws items).cols = 1) := by
  have hfits := fits_layout names o ws items
  refine ⟨(List.range (layout names o ws items).rows).map
    (Table.row items (layout names o ws items).rows (layout names o ws items).cols), ?_,
    Table.flatMap_columns (length_le_layout names o ws items), fun row hrow => ?_⟩
  · rw [List.flatMap_map]
    apply List.flatMap_congr
    intro r _
    exact congrArg (· ++ [Put.text [NEWLINE]]) (print_row_eq hfits r (Nat.zero_add _))
  obtain ⟨r, _, rfl⟩ := List.mem_map.mp hrow
  have hmeasure : ∀ it ∈ items, Table.measure Put.width (cell names o items color it) =
      printed o (Columns.of names o items).inode_w it :=
    fun it hit => width_put_cell (hfits.digits it hit)
  have hroom : ∀ out ∈ (Table.row items (layout names o ws items).rows
      (layout names o ws items).cols r).map (cell names o items color),
      Table.measure Put.width out + gap ≤ (layout names o ws items).cellw := by
    intro out hout
    obtain ⟨it, hit, rfl⟩ := List.mem_map.mp hout
    rw [hmeasure it (Table.mem_of_mem_row hit)]
    exact hfits.room it (Table.mem_of_mem_row hit)
  have hblank : Put.width (.text [BLANK]) = 1 := rfl
  refine ⟨fun c it hget => ?_, ?_⟩
  · have hcell : ((Table.row items (layout names o ws items).rows (layout names o ws items).cols
        r).map (cell names o items color))[c]? = some (cell names o items color it) := by
      rw [List.getElem?_map, hget]
      rfl
    obtain ⟨front, behind, hline, hfront, _, hgap, hlast⟩ := Table.line_cell hblank hroom hcell
    rw [List.length_map] at hlast
    exact ⟨front, behind, hline, hfront, hgap, hlast, seen_put_cell⟩
  · by_cases hcols : (layout names o ws items).cols = 1
    · exact .inr hcols
    · left
      have hle := Table.measure_line_le hblank
        fun out hout => le_trans (Nat.le_add_right _ gap) (hroom out hout)
      rw [List.length_map] at hle
      refine le_trans hle (le_trans ?_ (cols_mul_le names o ws items hcols))
      exact Nat.mul_le_mul_right _ (Table.length_row_le r)

end Myls
