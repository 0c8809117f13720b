import OsLessons.Bogatyr.Model

/-! # Which byte belongs to whom

  `collect_unique` returns the distinct bytes of the song in the order of
  their first occurrence (`collect_unique_eq`). Over the sorted pids the
  `owner` table is a bijection between these bytes and the first processes,
  and the search for the byte of a process inverts it (`assigned_eq_iff`).
  Neither depends on the order in which the registrations arrived.
-/

namespace Bogatyr

open MsgQueue

/-! ### Unique symbols -/

theorem nodup_eraseDups {α : Type*} [DecidableEq α] (l : List α) : l.eraseDups.Nodup := by
  generalize hn : l.length = n
  induction n using Nat.strong_induction_on generalizing l with
  | _ n ih =>
    match l with
    | [] => simp
    | a :: as =>
      rw [List.eraseDups_cons, List.nodup_cons]
      have hlen := List.length_filter_le (fun b => !b == a) as
      simp only [List.length_cons] at hn
      exact ⟨by simp [List.mem_eraseDups], ih _ (by omega) _ rfl⟩

/-- As long as the array has room for all of them, the loop appends the bytes
    it has not seen yet, each at its first occurrence. -/
theorem collect_unique_from_eq {out_cap : ℕ} {s : List UInt8} {seen : UInt8 → Bool}
    {out : List UInt8} (hseen : ∀ c, seen c = true ↔ c ∈ out)
    (hcap : out.length + (s.filter (· ∉ out)).eraseDups.length ≤ out_cap) :
    collect_unique_from out_cap s seen out = out ++ (s.filter (· ∉ out)).eraseDups := by
  induction s generalizing seen out with
  | nil => simp [collect_unique_from]
  | cons c s ih =>
    by_cases hc : c ∈ out
    -- a byte seen before is in `out` already
    · have hfilter : (c :: s).filter (· ∉ out) = s.filter (· ∉ out) := by simp [hc]
      rw [hfilter] at hcap ⊢
      rw [collect_unique_from, if_pos ((hseen c).mpr hc)]
      exact ih hseen hcap
    -- a new byte: the rest of the loop no longer counts it as unseen
    · have hrest : (s.filter (· ∉ out)).filter (fun b => !b == c) =
          s.filter (· ∉ out ++ [c]) := by
        rw [List.filter_filter]
        refine List.filter_congr fun b _ => ?_
        by_cases hb : b = c <;> simp [hb]
      have hfilter : ((c :: s).filter (· ∉ out)).eraseDups =
          c :: (s.filter (· ∉ out ++ [c])).eraseDups := by
        rw [List.filter_cons, if_pos (by simpa using hc), List.eraseDups_cons, hrest]
      rw [hfilter] at hcap ⊢
      simp only [List.length_cons] at hcap
      have hnew : ¬ seen c = true := fun h => hc ((hseen c).mp h)
      rw [collect_unique_from, if_neg hnew, if_pos (by omega), ih, List.append_assoc]
      · rfl
      · intro b
        by_cases hb : b = c
        · subst hb
          simp
        · simp [hb, hseen]
      · simp only [List.length_append, List.length_singleton]
        omega

/-- A list of distinct bytes fits into an array of 256. -/
theorem length_le_of_nodup {l : List UInt8} (h : l.Nodup) : l.length ≤ 256 := by
  have hmap : (l.map UInt8.toNat).Nodup := h.map fun a b hab => UInt8.toNat_inj.mp hab
  have hsub : (l.map UInt8.toNat).toFinset ⊆ Finset.range 256 := by
    intro x hx
    obtain ⟨c, _, rfl⟩ := List.mem_map.mp (List.mem_toFinset.mp hx)
    exact Finset.mem_range.mpr c.toNat_lt
  have hcard := Finset.card_le_card hsub
  rwa [List.toFinset_card_of_nodup hmap, List.length_map, Finset.card_range] at hcard

/-- `collect_unique` never overflows its array of 256. -/
theorem collect_unique_eq (s : CStr) : collect_unique s 256 = s.bytes.eraseDups := by
  have hall : s.bytes.filter (· ∉ ([] : List UInt8)) = s.bytes := by simp
  unfold collect_unique
  rw [collect_unique_from_eq (by simp), hall, List.nil_append]
  rw [hall, List.length_nil, Nat.zero_add]
  exact length_le_of_nodup (nodup_eraseDups _)

/-! ### Owners -/

/-- With distinct bytes, the table maps a byte to the pid next to it. -/
theorem fill_owner_eq_some {l : List (UInt8 × ℕ)} (h : (l.map Prod.fst).Nodup)
    (owner : UInt8 → Option ℕ) (c : UInt8) (p : ℕ) :
    fill_owner l owner c = some p ↔
      (c, p) ∈ l ∨ (c ∉ l.map Prod.fst ∧ owner c = some p) := by
  induction l generalizing owner with
  | nil => simp [fill_owner]
  | cons a l ih =>
    obtain ⟨c', p'⟩ := a
    simp only [List.map_cons, List.nodup_cons] at h
    rw [fill_owner, ih h.2]
    by_cases hc : c = c'
    · subst hc
      have hno : ∀ x, (c, x) ∉ l := fun x hx => h.1 (List.mem_map.mpr ⟨(c, x), hx, rfl⟩)
      simp only [hno, false_or, h.1, not_false_eq_true, Function.update_self, Option.some.injEq,
        true_and, List.mem_cons, Prod.mk.injEq, List.map_cons, not_true_eq_false, false_and,
        or_false]
      exact eq_comm
    · simp [hc]

theorem owner_of_eq_some {uniq : List UInt8} {pids : List ℕ} (h : uniq.Nodup)
    (hlen : uniq.length ≤ pids.length) {c : UInt8} {p : ℕ} :
    owner_of uniq pids c = some p ↔ (c, p) ∈ uniq.zip pids := by
  unfold owner_of
  rw [fill_owner_eq_some (by rwa [List.map_fst_zip hlen])]
  simp

/-! ### The assignment of a choir -/

section assignment
variable (cfg : Config)

/-- The array `pids` after `qsort`. -/
def order : List ℕ := cfg.pids.sort (· ≤ ·)

/-- The array `uniq`. -/
def symbols : List UInt8 := collect_unique cfg.song 256

/-- The array `owner`. -/
def owner : UInt8 → Option ℕ := owner_of (symbols cfg) (order cfg)

/-- The byte that process `p` is assigned. -/
def assigned (p : ℕ) : UInt8 := find_assigned (symbols cfg) (owner cfg) p

/-- The song has no more distinct bytes than there are processes. -/
def Fits : Prop := cfg.song.bytes.toFinset.card ≤ cfg.n

instance : Decidable (Fits cfg) := inferInstanceAs (Decidable (_ ≤ _))

variable {cfg}

@[simp] theorem mem_order {p : ℕ} : p ∈ order cfg ↔ p ∈ cfg.pids := Finset.mem_sort _
@[simp] theorem length_order : (order cfg).length = cfg.n := Finset.length_sort _
theorem nodup_order : (order cfg).Nodup := Finset.sort_nodup ..

/-- Whatever order the registrations arrived in, `qsort` gives the same array. -/
theorem qsort_eq {pids : List ℕ} (hnodup : pids.Nodup) (hmem : ∀ p, p ∈ pids ↔ p ∈ cfg.pids) :
    qsort pids = order cfg := by
  have hrel : (fun a b => cmp_pid a b ≤ 0) = fun a b : ℕ => a ≤ b := by
    funext a b
    unfold cmp_pid
    split_ifs <;> simp <;> omega
  have hset : pids.toFinset = cfg.pids := by
    ext p
    simp [hmem]
  -- sorting two lists of the same distinct pids gives the same list
  have hperm : (qsort pids).Perm (order cfg) := by
    refine (List.perm_insertionSort _ _).trans ?_
    refine (List.toFinset_toList hnodup).symm.trans ?_
    rw [hset]
    exact (Finset.sort_perm_toList _ _).symm
  refine hperm.eq_of_pairwise' ?_ (Finset.pairwise_sort _ _)
  unfold qsort
  simp only [hrel]
  exact List.pairwise_insertionSort _ _

theorem nodup_symbols : (symbols cfg).Nodup := by
  unfold symbols
  rw [collect_unique_eq]
  exact nodup_eraseDups _

@[simp] theorem mem_symbols {c : UInt8} : c ∈ symbols cfg ↔ c ∈ cfg.song.bytes := by
  unfold symbols
  rw [collect_unique_eq, List.mem_eraseDups]

theorem length_symbols : (symbols cfg).length = cfg.song.bytes.toFinset.card := by
  rw [← List.toFinset_card_of_nodup nodup_symbols]
  congr 1
  ext c
  simp

theorem Fits.length_le (fits : Fits cfg) : (symbols cfg).length ≤ (order cfg).length := by
  rw [length_symbols, length_order]
  exact fits

theorem owner_eq_some (fits : Fits cfg) {c : UInt8} {p : ℕ} :
    owner cfg c = some p ↔ (c, p) ∈ (symbols cfg).zip (order cfg) :=
  owner_of_eq_some nodup_symbols fits.length_le

/-- Every byte of the song has an owner. -/
theorem exists_owner (fits : Fits cfg) {c : UInt8} (hc : c ∈ cfg.song.bytes) :
    ∃ p ∈ cfg.pids, owner cfg c = some p := by
  obtain ⟨i, hi, rfl⟩ := List.mem_iff_getElem.mp (mem_symbols.mpr hc)
  have hi' : i < (order cfg).length := lt_of_lt_of_le hi fits.length_le
  refine ⟨(order cfg)[i], mem_order.mp (List.getElem_mem _), (owner_eq_some fits).mpr ?_⟩
  refine List.mem_iff_getElem.mpr ⟨i, ?_, List.getElem_zip⟩
  rw [List.length_zip]
  exact lt_min hi hi'

theorem owner_mem (fits : Fits cfg) {c : UInt8} {p : ℕ} (h : owner cfg c = some p) :
    c ∈ cfg.song.bytes ∧ p ∈ cfg.pids := by
  have hz := (owner_eq_some fits).mp h
  exact ⟨mem_symbols.mp (List.of_mem_zip hz).1, mem_order.mp (List.of_mem_zip hz).2⟩

/-- No process owns two bytes. -/
theorem owner_inj (fits : Fits cfg) {c c' : UInt8} {p : ℕ} (h : owner cfg c = some p)
    (h' : owner cfg c' = some p) : c = c' := by
  obtain ⟨i, hi, heq⟩ := List.mem_iff_getElem.mp ((owner_eq_some fits).mp h)
  obtain ⟨j, hj, heq'⟩ := List.mem_iff_getElem.mp ((owner_eq_some fits).mp h')
  simp only [List.getElem_zip, Prod.mk.injEq] at heq heq'
  simp only [List.length_zip] at hi hj
  -- the pids are distinct, so both bytes stand at the same index
  obtain rfl : i = j := (nodup_order.getElem_inj_iff).mp (heq.2.trans heq'.2.symm)
  exact heq.1.symm.trans heq'.1

/-- The byte sent to process `p` is the one it owns. -/
theorem assigned_of_owner (fits : Fits cfg) {c : UInt8} {p : ℕ} (h : owner cfg c = some p) :
    assigned cfg p = c := by
  unfold assigned find_assigned
  cases hfind : (symbols cfg).find? fun c => owner cfg c = some p with
  | none =>
    have := List.find?_eq_none.mp hfind c (mem_symbols.mpr (owner_mem fits h).1)
    simp [h] at this
  | some c' =>
    have hc' := List.find?_some hfind
    exact owner_inj fits (by simpa using hc') h

theorem owner_of_assigned {p : ℕ} (h : assigned cfg p ≠ 0) :
    owner cfg (assigned cfg p) = some p := by
  unfold assigned find_assigned at h ⊢
  cases hfind : (symbols cfg).find? fun c => owner cfg c = some p with
  | none => simp [hfind] at h
  | some c' =>
    have hc' := List.find?_some hfind
    simpa using hc'

/-- The byte of `p` is `c` exactly if `p` owns `c`, for every byte of the song. -/
theorem assigned_eq_iff (fits : Fits cfg) {c : UInt8} (hc : c ∈ cfg.song.bytes) (p : ℕ) :
    assigned cfg p = c ↔ owner cfg c = some p := by
  constructor
  · rintro rfl
    refine owner_of_assigned fun h0 => cfg.song.no_nul ?_
    rwa [h0] at hc
  · exact assigned_of_owner fits

theorem ne_zero_of_mem {c : UInt8} (hc : c ∈ cfg.song.bytes) : c ≠ 0 := by
  rintro rfl
  exact cfg.song.no_nul hc

end assignment

end Bogatyr
