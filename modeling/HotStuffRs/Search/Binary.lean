import Mathlib.Data.List.Sort
import Mathlib.Order.Compare

/-
Binary search in a list in ascending order.

A search ends with the position of the key, or with the one position at which the key can be
inserted.
-/

namespace Search

variable {α : Type} [LinearOrder α]

/-- Search the positions from `lo` to before `hi`.  Every step leaves fewer of them, so that as
much fuel as there are positions is enough. -/
def searchBetween (l : List α) (key : α) : Nat → Nat → Nat → Except Nat Nat
  | 0, lo, _ => .error lo
  | fuel + 1, lo, hi =>
    if lo < hi then
      let mid := lo + (hi - lo) / 2
      match l[mid]? with
      | none => .error lo
      | some a =>
        match compare a key with
        | .lt => searchBetween l key fuel (mid + 1) hi
        | .gt => searchBetween l key fuel lo mid
        | .eq => .ok mid
    else .error lo

def binarySearch (l : List α) (key : α) : Except Nat Nat :=
  searchBetween l key l.length 0 l.length

/-- What comes before `lo` is less than the key, and what comes from `hi` on is greater. -/
structure Within (l : List α) (key : α) (lo hi : Nat) : Prop where
  le : lo ≤ hi
  le_length : hi ≤ l.length
  lt_key : ∀ i a, i < lo → l[i]? = some a → a < key
  key_lt : ∀ i a, hi ≤ i → l[i]? = some a → key < a

variable {l : List α} {key : α}

theorem getElem?_lt (hl : l.Pairwise (· < ·)) {i j : Nat} {a b : α} (hij : i < j)
    (hi : l[i]? = some a) (hj : l[j]? = some b) : a < b := by
  obtain ⟨hi', rfl⟩ := List.getElem?_eq_some_iff.mp hi
  obtain ⟨hj', rfl⟩ := List.getElem?_eq_some_iff.mp hj
  exact List.pairwise_iff_getElem.mp hl i j hi' hj' hij

theorem Within.above (hl : l.Pairwise (· < ·)) {lo hi mid : Nat} {a : α}
    (h : Within l key lo hi) (hmid : mid < hi) (ha : l[mid]? = some a) (hlt : a < key) :
    Within l key (mid + 1) hi where
  le := hmid
  le_length := h.le_length
  lt_key i b hi hb := by
    rcases Nat.lt_succ_iff_lt_or_eq.mp hi with hlt' | rfl
    · exact (getElem?_lt hl hlt' hb ha).trans hlt
    · rw [ha, Option.some.injEq] at hb
      exact hb ▸ hlt
  key_lt := h.key_lt

theorem Within.below (hl : l.Pairwise (· < ·)) {lo hi mid : Nat} {a : α}
    (h : Within l key lo hi) (hlo : lo ≤ mid) (hmid : mid < hi) (ha : l[mid]? = some a)
    (hlt : key < a) : Within l key lo mid where
  le := hlo
  le_length := hmid.le.trans h.le_length
  lt_key := h.lt_key
  key_lt i b hi hb := by
    rcases Nat.lt_or_eq_of_le hi with hlt' | rfl
    · exact hlt.trans (getElem?_lt hl hlt' ha hb)
    · rw [ha, Option.some.injEq] at hb
      exact hb ▸ hlt

theorem searchBetween_spec (hl : l.Pairwise (· < ·)) {fuel lo hi : Nat} (h : Within l key lo hi)
    (hfuel : hi - lo ≤ fuel) :
    (∃ pos, searchBetween l key fuel lo hi = .ok pos ∧ l[pos]? = some key) ∨
    ∃ pos, searchBetween l key fuel lo hi = .error pos ∧ Within l key pos pos := by
  induction fuel generalizing lo hi with
  | zero =>
    have heq : hi = lo := by
      have hle := h.le
      omega
    subst heq
    exact .inr ⟨hi, rfl, h⟩
  | succ fuel ih =>
    by_cases hlt : lo < hi
    · have hmid : lo + (hi - lo) / 2 < hi := by omega
      obtain ⟨a, hget⟩ : ∃ a, l[lo + (hi - lo) / 2]? = some a :=
        ⟨_, List.getElem?_eq_getElem (hmid.trans_le h.le_length)⟩
      rw [searchBetween, if_pos hlt]
      dsimp only
      rw [hget]
      dsimp only
      cases hcmp : compare a key with
      | lt => exact ih (h.above hl hmid hget (compare_lt_iff_lt.mp hcmp)) (by omega)
      | gt =>
        exact ih (h.below hl (by omega) hmid hget (compare_gt_iff_gt.mp hcmp)) (by omega)
      | eq =>
        rw [compare_eq_iff_eq] at hcmp
        exact .inl ⟨_, rfl, hcmp ▸ hget⟩
    · have heq : hi = lo := by
        have hle := h.le
        omega
      subst heq
      rw [searchBetween, if_neg hlt]
      exact .inr ⟨hi, rfl, h⟩

theorem binarySearch_spec (hl : l.Pairwise (· < ·)) (key : α) :
    (∃ pos, binarySearch l key = .ok pos ∧ l[pos]? = some key) ∨
    ∃ pos, binarySearch l key = .error pos ∧ Within l key pos pos := by
  apply searchBetween_spec hl _ (Nat.sub_le _ _)
  exact {
    le := Nat.zero_le _
    le_length := le_rfl
    lt_key := fun i a hi => absurd hi (Nat.not_lt_zero i)
    key_lt := fun i a hi ha => by
      rw [List.getElem?_eq_none hi] at ha
      cases ha }

theorem Within.notMem {pos : Nat} (h : Within l key pos pos) : key ∉ l := by
  intro hmem
  obtain ⟨i, hi⟩ := List.mem_iff_getElem?.mp hmem
  by_cases hlt : i < pos
  · exact lt_irrefl key (h.lt_key i key hlt hi)
  · exact lt_irrefl key (h.key_lt i key (Nat.le_of_not_lt hlt) hi)

/-- The search finds the key at its position, if it is there. -/
theorem binarySearch_eq_ok (hl : l.Pairwise (· < ·)) {pos : Nat} :
    binarySearch l key = .ok pos ↔ l[pos]? = some key := by
  rcases binarySearch_spec hl key with ⟨pos', heq, hget⟩ | ⟨pos', heq, hwithin⟩
  · rw [heq, Except.ok.injEq]
    constructor
    · intro h
      exact h ▸ hget
    · intro h
      by_contra hne
      rcases Nat.lt_or_gt_of_ne hne with hlt | hgt
      · exact lt_irrefl key (getElem?_lt hl hlt hget h)
      · exact lt_irrefl key (getElem?_lt hl hgt h hget)
  · rw [heq]
    constructor
    · intro h
      cases h
    · intro h
      exact absurd (List.mem_of_getElem? h) hwithin.notMem

theorem exists_binarySearch_ok (hl : l.Pairwise (· < ·)) (h : key ∈ l) :
    ∃ pos, binarySearch l key = .ok pos := by
  obtain ⟨pos, hpos⟩ := List.mem_iff_getElem?.mp h
  exact ⟨pos, (binarySearch_eq_ok hl).mpr hpos⟩

theorem exists_binarySearch_error (hl : l.Pairwise (· < ·)) (h : key ∉ l) :
    ∃ pos, binarySearch l key = .error pos ∧ Within l key pos pos := by
  rcases binarySearch_spec hl key with ⟨pos, -, hget⟩ | herror
  · exact absurd (List.mem_of_getElem? hget) h
  · exact herror

/-! ## Insertion and removal -/

theorem Within.insertIdx_eq_orderedInsert {pos : Nat} (h : Within l key pos pos) :
    l.insertIdx pos key = l.orderedInsert (· ≤ ·) key := by
  induction l generalizing pos with
  | nil =>
    obtain rfl : pos = 0 := Nat.le_zero.mp h.le_length
    rfl
  | cons a l ih =>
    cases pos with
    | zero =>
      have hlt : key < a := h.key_lt 0 a le_rfl rfl
      rw [List.insertIdx_zero, List.orderedInsert_cons, if_pos hlt.le]
    | succ pos =>
      have hlt : a < key := h.lt_key 0 a (Nat.succ_pos pos) rfl
      have hrest : Within l key pos pos := {
        le := le_rfl
        le_length := Nat.le_of_succ_le_succ h.le_length
        lt_key := fun i b hi hb => h.lt_key (i + 1) b (Nat.succ_lt_succ hi) hb
        key_lt := fun i b hi hb => h.key_lt (i + 1) b (Nat.succ_le_succ hi) hb }
      rw [List.insertIdx_succ_cons, List.orderedInsert_cons, if_neg (not_le.mpr hlt), ih hrest]

theorem pairwise_orderedInsert (hl : l.Pairwise (· < ·)) (h : key ∉ l) :
    (l.orderedInsert (· ≤ ·) key).Pairwise (· < ·) := by
  have hle : (l.orderedInsert (· ≤ ·) key).Pairwise (· ≤ ·) :=
    (hl.imp fun hab => le_of_lt hab).orderedInsert key l
  have hnodup : (l.orderedInsert (· ≤ ·) key).Nodup :=
    (List.perm_orderedInsert _ key l).nodup_iff.mpr
      (List.nodup_cons.mpr ⟨h, hl.imp fun hab => ne_of_lt hab⟩)
  exact (hle.and hnodup).imp fun hab => lt_of_le_of_ne hab.1 hab.2

theorem eraseIdx_eq_erase (hl : l.Pairwise (· < ·)) {pos : Nat} (h : l[pos]? = some key) :
    l.eraseIdx pos = l.erase key := by
  have hnodup : l.Nodup := hl.imp fun hab => ne_of_lt hab
  obtain ⟨hlt, rfl⟩ := List.getElem?_eq_some_iff.mp h
  exact (hnodup.erase_getElem pos hlt).symm

/-! ## Keys of a map -/

/-- A list in ascending order of the keys of a map is the list of its keys. -/
theorem eq_keys {β : Type} {m : Std.ExtTreeMap α β compare} (hl : l.Pairwise (· < ·))
    (hmem : ∀ a, a ∈ l ↔ a ∈ m) : l = m.keys := by
  have hkeys : m.keys.Pairwise (· < ·) :=
    Std.ExtTreeMap.ordered_keys.imp fun h => compare_lt_iff_lt.mp h
  have hnodup : l.Nodup := hl.imp fun h => ne_of_lt h
  have hperm : l.Perm m.keys := by
    rw [List.perm_ext_iff_of_nodup hnodup (hkeys.imp fun h => ne_of_lt h)]
    intro a
    rw [hmem, Std.ExtTreeMap.mem_keys]
  apply List.Perm.eq_of_pairwise _ hl hkeys hperm
  intro a b _ _ hab hba
  exact absurd hab (lt_asymm hba)

end Search
