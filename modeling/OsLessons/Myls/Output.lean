import OsLessons.Myls.Model

/-! # myls: what is written to the standard output

  A line is made of texts and of colour codes, which take no place on a
  terminal (`width`). Fields are numbers and names with blanks on one side up to
  a width that is given with the format. A file's type and permissions are its
  mode.
-/

namespace Myls

open FileSystem

/-! ### Texts and colour codes -/

/-- What one call writes. -/
inductive Put where
  | text (s : List UInt8)
  | colour (code : List UInt8)
  deriving DecidableEq

def Put.bytes : Put → List UInt8
  | .text s => s
  | .colour code => code

/-- The places on a line. -/
def Put.width : Put → ℕ
  | .text s => s.length
  | .colour _ => 0

/-- The characters that are seen. -/
def Put.seen : Put → List UInt8
  | .text s => s
  | .colour _ => []

def bytes (out : List Put) : List UInt8 := out.flatMap Put.bytes

def seen (out : List Put) : List UInt8 := out.flatMap Put.seen

def width (out : List Put) : ℕ := (out.map Put.width).sum

@[simp] theorem bytes_cons (x : Put) (out : List Put) : bytes (x :: out) = x.bytes ++ bytes out := rfl

@[simp] theorem bytes_append (out out' : List Put) : bytes (out ++ out') = bytes out ++ bytes out' :=
  List.flatMap_append

@[simp] theorem seen_append (out out' : List Put) : seen (out ++ out') = seen out ++ seen out' :=
  List.flatMap_append

@[simp] theorem width_cons (x : Put) (out : List Put) : width (x :: out) = x.width + width out := rfl

@[simp] theorem width_append (out out' : List Put) : width (out ++ out') = width out + width out' := by
  rw [width, List.map_append, List.sum_append]
  rfl

def chars (s : List Char) : List UInt8 := s.map fun c => c.toNat.toUInt8
def ascii (s : String) : List UInt8 := chars s.toList

def BLANK : UInt8 := 0x20
def NEWLINE : UInt8 := 0x0a

/-! ### Modes -/

def S_ISCHR (m : ℕ) : Bool := m &&& S_IFMT = 0o020000
def S_ISBLK (m : ℕ) : Bool := m &&& S_IFMT = 0o060000
def S_ISREG (m : ℕ) : Bool := m &&& S_IFMT = 0o100000
def S_ISFIFO (m : ℕ) : Bool := m &&& S_IFMT = 0o010000
def S_ISSOCK (m : ℕ) : Bool := m &&& S_IFMT = 0o140000

def S_ISUID : ℕ := 0o4000
def S_ISGID : ℕ := 0o2000
def S_ISVTX : ℕ := 0o1000
def S_IRUSR : ℕ := 0o400
def S_IWUSR : ℕ := 0o200
def S_IXUSR : ℕ := 0o100
def S_IRGRP : ℕ := 0o040
def S_IWGRP : ℕ := 0o020
def S_IXGRP : ℕ := 0o010
def S_IROTH : ℕ := 0o004
def S_IWOTH : ℕ := 0o002
def S_IXOTH : ℕ := 0o001

/-- `m & bits` as a condition. -/
def has (m bits : ℕ) : Bool := m &&& bits ≠ 0

/-- `x` at position `k` of `s` becomes `yes`, anything else `no`, if `bit` is set. -/
def special (m bit k : ℕ) (yes no : Char) (s : List Char) : List Char :=
  if has m bit then s.set k (if s[k]? = some 'x' then yes else no) else s

def mode_to_str (m : ℕ) : List Char :=
  let s :=
    [if S_ISDIR m then 'd' else if S_ISLNK m then 'l' else
      if S_ISCHR m then 'c' else if S_ISBLK m then 'b' else
      if S_ISFIFO m then 'p' else if S_ISSOCK m then 's' else '-',
     if has m S_IRUSR then 'r' else '-',
     if has m S_IWUSR then 'w' else '-',
     if has m S_IXUSR then 'x' else '-',
     if has m S_IRGRP then 'r' else '-',
     if has m S_IWGRP then 'w' else '-',
     if has m S_IXGRP then 'x' else '-',
     if has m S_IROTH then 'r' else '-',
     if has m S_IWOTH then 'w' else '-',
     if has m S_IXOTH then 'x' else '-']
  special m S_ISVTX 9 't' 'T' (special m S_ISGID 6 's' 'S' (special m S_ISUID 3 's' 'S' s))

theorem length_special (m bit k : ℕ) (yes no : Char) (s : List Char) :
    (special m bit k yes no s).length = s.length := by
  unfold special
  split
  · rw [List.length_set]
  · rfl

theorem length_mode_to_str (m : ℕ) : (chars (mode_to_str m)).length = 10 := by
  rw [chars, List.length_map]
  unfold mode_to_str
  rw [length_special, length_special, length_special]
  rfl

/-! ### Names -/

def color_code (m : ℕ) : Option (List UInt8) :=
  if S_ISDIR m then some (0x1b :: ascii "[01;34m")
  else if S_ISLNK m then some (0x1b :: ascii "[01;36m")
  else if S_ISSOCK m then some (0x1b :: ascii "[01;35m")
  else if S_ISFIFO m then some (0x1b :: ascii "[33m")
  else if S_ISBLK m then some (0x1b :: ascii "[01;33m")
  else if S_ISCHR m then some (0x1b :: ascii "[01;33m")
  else if S_ISREG m && has m (S_IXUSR ||| S_IXGRP ||| S_IXOTH) then
    some (0x1b :: ascii "[01;32m")
  else none

/-- `color` is the option: 2 for always, 1 for a terminal only. -/
def print_name_colored (color : ℕ) (tty : Bool) (name : Name) (m : ℕ) : List Put :=
  match if color = 2 ∨ color = 1 ∧ tty = true then color_code m else none with
  | some c => [.colour c, .text name, .colour (0x1b :: ascii "[0m")]
  | none => [.text name]

theorem width_print_name_colored (color : ℕ) (tty : Bool) (name : Name) (m : ℕ) :
    width (print_name_colored color tty name m) = name.length := by
  unfold print_name_colored
  split
  · show 0 + (name.length + (0 + 0)) = name.length
    omega
  · rfl

theorem seen_print_name_colored (color : ℕ) (tty : Bool) (name : Name) (m : ℕ) :
    seen (print_name_colored color tty name m) = name := by
  unfold print_name_colored
  split
  · show [] ++ (name ++ ([] ++ [])) = name
    simp
  · exact List.append_nil name

/-! ### Fields -/

/-- `%*ju` -/
def ju (w x : ℕ) : List UInt8 := (decimal x).leftpad w BLANK

/-- `%-*s` -/
def minus_s (w : ℕ) (s : List UInt8) : List UInt8 := s.rightpad w BLANK

/-- `%*ju` and a blank, with `-i` -/
def print_inode (o : Opts) (inode_w : ℕ) (it : Item) : List Put :=
  if o.i then [.text (ju inode_w it.st.st_ino ++ [BLANK])] else []

theorem seen_print_inode (o : Opts) (inode_w : ℕ) (it : Item) :
    seen (print_inode o inode_w it) = if o.i then ju inode_w it.st.st_ino ++ [BLANK] else [] := by
  unfold print_inode
  split
  · exact List.append_nil _
  · rfl

theorem length_decimal (x : ℕ) : (decimal x).length = digits_uintmax x := by
  rw [decimal, List.length_map]
  fun_induction digits_uintmax x with
  | case1 x hx ih =>
    rw [Nat.toDigits_of_base_le (by decide) hx, List.length_append, ih]
    rfl
  | case2 x hx =>
    rw [Nat.toDigits_of_lt_base (Nat.lt_of_not_le hx)]
    rfl

theorem length_ju {w x : ℕ} (h : digits_uintmax x ≤ w) : (ju w x).length = w := by
  rw [ju, List.length_leftpad, length_decimal, max_eq_left h]

theorem length_minus_s {w : ℕ} {s : List UInt8} (h : s.length ≤ w) : (minus_s w s).length = w := by
  rw [minus_s, List.length_rightpad, max_eq_left h]

/-! ### Widths -/

/-- The widths for all items. -/
def Columns.of (names : Names) (o : Opts) (items : List Item) : Columns :=
  items.foldl (Columns.add names o) ⟨0, 0, 0, 0, 0, 0, 0⟩

/-- `w` is the length of the longest of the items. -/
structure Widest (len : Item → ℕ) (items : List Item) (w : ℕ) : Prop where
  le : ∀ it ∈ items, len it ≤ w
  attained : items ≠ [] → ∃ it ∈ items, len it = w
  empty : items = [] → w = 0

variable {len : Item → ℕ} {items : List Item} {w : ℕ}

theorem Widest.concat (h : Widest len items w) (it : Item) :
    Widest len (items ++ [it]) (max w (len it)) := by
  refine ⟨fun x hx => ?_, fun _ => ?_, fun hnil => ?_⟩
  · rcases List.mem_append.mp hx with hx | hx
    · exact le_max_of_le_left (h.le x hx)
    · rw [List.mem_singleton.mp hx]
      exact le_max_right _ _
  · rcases le_total w (len it) with hle | hle
    · exact ⟨it, List.mem_concat_self, (max_eq_right hle).symm⟩
    · rw [max_eq_left hle]
      by_cases hnil : items = []
      · have hzero : len it = 0 := Nat.le_zero.mp (h.empty hnil ▸ hle)
        exact ⟨it, List.mem_concat_self, by rw [hzero, h.empty hnil]⟩
      · obtain ⟨x, hx, hlen⟩ := h.attained hnil
        exact ⟨x, List.mem_append_left _ hx, hlen⟩
  · exact absurd hnil (List.concat_ne_nil it items)

/-- **Running maximum**: a width that every item raises to its own length is the
    length of the longest. -/
theorem widest_of {names : Names} {o : Opts} (get : Columns → ℕ) (hzero : get ⟨0, 0, 0, 0, 0, 0, 0⟩ = 0)
    (hadd : ∀ c it, get (c.add names o it) = max (get c) (len it)) (items : List Item) :
    Widest len items (get (Columns.of names o items)) := by
  induction items using List.reverseRecOn with
  | nil => exact ⟨nofun, fun hne => absurd rfl hne, fun _ => hzero⟩
  | append_singleton items it ih =>
    rw [Columns.of, List.foldl_append]
    show Widest len (items ++ [it]) (get ((Columns.of names o items).add names o it))
    rw [hadd]
    exact ih.concat it

end Myls
