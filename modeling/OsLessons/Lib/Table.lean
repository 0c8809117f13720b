import Mathlib

/-! # Tables that are filled column by column

  A list goes down the first of `cols` columns of `rows` elements, then down the
  second, and so on. `row` is one row of such a table; read by columns the rows
  give the list back (`flatMap_columns`).

  A row is printed as its cells, each filled up with blanks to the width of a
  cell, except for the last (`line`). Where every cell leaves a gap, the cells
  begin at the multiples of that width (`line_cell`).
-/

namespace Table

/-! ### Rows and columns -/

section rows
variable {α : Type*} (xs : List α) (rows cols : ℕ)

/-- Row `r`: element `r` of each column that has one. -/
def row (r : ℕ) : List α := (List.range cols).filterMap fun c => xs[r + c * rows]?

variable {xs rows cols} {r c : ℕ}

theorem filterMap_range_succ (f : ℕ → Option α) (n : ℕ) :
    (List.range (n + 1)).filterMap f = (List.range n).filterMap f ++ (f n).toList := by
  rw [List.range_succ, List.filterMap_append]
  cases h : f n with
  | none =>
    rw [List.filterMap_cons_none h]
    rfl
  | some x =>
    rw [List.filterMap_cons_some h]
    rfl

theorem row_succ (r : ℕ) :
    row xs rows (cols + 1) r = row xs rows cols r ++ (xs[r + cols * rows]?).toList :=
  filterMap_range_succ _ cols

/-- A row is as long as there are columns that reach down to it. -/
theorem length_row_eq (h : cols = 0 ∨ r + (cols - 1) * rows < xs.length) :
    (row xs rows cols r).length = cols := by
  induction cols with
  | zero => rfl
  | succ cols ih =>
    have hlast : r + cols * rows < xs.length := by
      rcases h with h | h
      · cases h
      · exact h
    have hprev : cols = 0 ∨ r + (cols - 1) * rows < xs.length := by
      rcases Nat.eq_zero_or_pos cols with hz | hpos
      · exact .inl hz
      · right
        have hle : (cols - 1) * rows ≤ cols * rows := Nat.mul_le_mul_right rows (Nat.sub_le cols 1)
        omega
    rw [row_succ, List.length_append, ih hprev, List.getElem?_eq_getElem hlast]
    rfl

/-- The columns behind one that does not reach down to a row do not either. -/
theorem row_eq_of_le (hc : c ≤ cols) (h : xs.length ≤ r + c * rows) :
    row xs rows cols r = row xs rows c r := by
  induction cols, hc using Nat.le_induction with
  | base => rfl
  | succ cols hle ih =>
    have hmul : c * rows ≤ cols * rows := Nat.mul_le_mul_right rows hle
    rw [row_succ, ih, List.getElem?_eq_none (by omega)]
    exact List.append_nil _

theorem row_prefix (hc : c ≤ cols) : row xs rows c r <+: row xs rows cols r := by
  induction cols, hc using Nat.le_induction with
  | base => exact List.prefix_rfl
  | succ cols hle ih =>
    rw [row_succ]
    exact ih.trans (List.prefix_append _ _)

theorem length_row_le (r : ℕ) : (row xs rows cols r).length ≤ cols := by
  have hle := List.length_filterMap_le (fun c => xs[r + c * rows]?) (List.range cols)
  rwa [List.length_range] at hle

theorem mem_of_mem_row {x : α} (h : x ∈ row xs rows cols r) : x ∈ xs := by
  obtain ⟨c, _, hget⟩ := List.mem_filterMap.mp h
  exact List.mem_of_getElem? hget

/-- Element `c` of row `r` is element `r` of column `c`. -/
theorem getElem?_row (hc : c < cols) : (row xs rows cols r)[c]? = xs[r + c * rows]? := by
  rcases Nat.lt_or_ge (r + c * rows) xs.length with hlt | hge
  · have hlen : (row xs rows c r).length = c := by
      apply length_row_eq
      rcases Nat.eq_zero_or_pos c with hz | hpos
      · exact .inl hz
      · right
        have hle : (c - 1) * rows ≤ c * rows := Nat.mul_le_mul_right rows (Nat.sub_le c 1)
        omega
    have hprefix : row xs rows (c + 1) r <+: row xs rows cols r :=
      row_prefix (Nat.succ_le_of_lt hc)
    obtain ⟨behind, hbehind⟩ := hprefix
    rw [← hbehind, row_succ, List.append_assoc, List.getElem?_append_right (by rw [hlen]), hlen,
      Nat.sub_self, List.getElem?_eq_getElem hlt]
    rfl
  · rw [List.getElem?_eq_none hge, row_eq_of_le hc.le hge]
    exact List.getElem?_eq_none (length_row_le r)

theorem filterMap_getElem? (xs : List α) (n : ℕ) :
    (List.range n).filterMap (fun i => xs[i]?) = xs.take n := by
  induction n with
  | zero => rfl
  | succ n ih =>
    rw [filterMap_range_succ, ih, List.take_add_one]

/-- **Reading by columns**: the rows hold every element of the list once, and
    from one column to the next they come in its order. -/
theorem flatMap_columns (h : xs.length ≤ cols * rows) :
    (List.range cols).flatMap (fun c =>
      ((List.range rows).map (row xs rows cols)).filterMap fun l => l[c]?) = xs := by
  have hcolumn : ∀ c ∈ List.range cols,
      ((List.range rows).map (row xs rows cols)).filterMap (fun l => l[c]?) =
        (xs.drop (c * rows)).take rows := by
    intro c hc
    rw [List.filterMap_map, ← filterMap_getElem?]
    apply List.filterMap_congr
    intro r _
    rw [Function.comp_apply, getElem?_row (List.mem_range.mp hc), List.getElem?_drop, Nat.add_comm]
  have htake : ∀ k, (List.range k).flatMap (fun c => (xs.drop (c * rows)).take rows) =
      xs.take (k * rows) := by
    intro k
    induction k with
    | zero =>
      rw [Nat.zero_mul]
      rfl
    | succ k ih =>
      rw [List.range_succ, List.flatMap_append, ih, Nat.succ_mul, List.take_add,
        List.flatMap_singleton]
  rw [List.flatMap_congr hcolumn, htake, List.take_of_length_le h]

end rows

/-! ### Lines -/

section lines
variable {β : Type*} (size : β → ℕ) (blank : β) (cellw : ℕ)

/-- The places a cell takes. -/
def measure (cell : List β) : ℕ := (cell.map size).sum

/-- The cells of a row, all but the last filled up with blanks. -/
def line : List (List β) → List β
  | [] => []
  | [cell] => cell
  | cell :: next :: cells =>
      cell ++ List.replicate (cellw - measure size cell) blank ++ line (next :: cells)

variable {size blank cellw}

theorem measure_append (l l' : List β) :
    measure size (l ++ l') = measure size l + measure size l' := by
  rw [measure, List.map_append, List.sum_append]
  rfl

theorem measure_blanks (hblank : size blank = 1) (k : ℕ) :
    measure size (List.replicate k blank) = k := by
  rw [measure, List.map_replicate, List.sum_replicate, hblank, smul_eq_mul, Nat.mul_one]

/-- **Alignment**: cell number `c` begins at `c` times the width of a cell, with
    the gap in front of it unless it is the first one; behind the last one
    there is nothing. -/
theorem line_cell (hblank : size blank = 1) {gap : ℕ} {cells : List (List β)}
    (hfit : ∀ cell ∈ cells, measure size cell + gap ≤ cellw) {c : ℕ} {cell : List β}
    (hc : cells[c]? = some cell) :
    ∃ front behind, line size blank cellw cells = front ++ cell ++ behind ∧
      measure size front = c * cellw ∧
      (c = 0 → front = []) ∧ (0 < c → List.replicate gap blank <:+ front) ∧
      (c + 1 = cells.length → behind = []) := by
  induction c generalizing cells with
  | zero =>
    cases cells with
    | nil => cases hc
    | cons first cells =>
      cases hc
      cases cells with
      | nil =>
        exact ⟨[], [], (List.append_nil _).symm, (Nat.zero_mul _).symm, fun _ => rfl, nofun,
          fun _ => rfl⟩
      | cons next cells =>
        refine ⟨[], List.replicate (cellw - measure size cell) blank ++
          line size blank cellw (next :: cells), List.append_assoc _ _ _, (Nat.zero_mul _).symm,
          fun _ => rfl, nofun, fun hlen => ?_⟩
        rw [List.length_cons, List.length_cons] at hlen
        omega
  | succ c ih =>
    cases cells with
    | nil => cases hc
    | cons first cells =>
      cases cells with
      | nil => cases hc
      | cons next cells =>
        obtain ⟨front, behind, hline, hfront, hfirst, hgap, hlast⟩ :=
          ih (fun cell hcell => hfit cell (List.mem_cons_of_mem _ hcell)) hc
        have hle := hfit first List.mem_cons_self
        refine ⟨first ++ List.replicate (cellw - measure size first) blank ++ front, behind,
          ?_, ?_, nofun, fun _ => ?_, fun hlen => hlast (Nat.succ_injective hlen)⟩
        · rw [line, hline]
          simp only [List.append_assoc]
        · rw [measure_append, measure_append, measure_blanks hblank, hfront, Nat.succ_mul]
          omega
        · rcases Nat.eq_zero_or_pos c with rfl | hpos
          · rw [hfirst rfl, List.append_nil]
            have hcut : cellw - measure size first = cellw - measure size first - gap + gap := by
              omega
            rw [hcut, List.replicate_add, ← List.append_assoc]
            exact List.suffix_append _ _
          · exact (hgap hpos).trans (List.suffix_append _ _)

/-- A line is not longer than its cells. -/
theorem measure_line_le (hblank : size blank = 1) {cells : List (List β)}
    (hfit : ∀ cell ∈ cells, measure size cell ≤ cellw) :
    measure size (line size blank cellw cells) ≤ cells.length * cellw := by
  induction cells with
  | nil => exact Nat.zero_le _
  | cons first cells ih =>
    have hfirst := hfit first List.mem_cons_self
    have hrest := ih fun cell hcell => hfit cell (List.mem_cons_of_mem _ hcell)
    cases cells with
    | nil =>
      rw [line, List.length_singleton, Nat.one_mul]
      exact hfirst
    | cons next cells =>
      rw [line, measure_append, measure_append, measure_blanks hblank, List.length_cons,
        Nat.succ_mul]
      omega

end lines

end Table
