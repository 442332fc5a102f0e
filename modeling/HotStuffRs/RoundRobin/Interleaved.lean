import Mathlib.Algebra.BigOperators.Group.List.Basic
import Mathlib.Data.List.Count
import Mathlib.Data.Nat.Periodic

/-
Interleaved weighted round robin.

A cycle is made of rows.  The members whose weights reach `t` have a place in row `t`, in a fixed
order, so that a member has as many places in a cycle as it weighs.
-/

namespace RoundRobin

variable {ι : Type} (w : ι → Nat) (l : List ι)

/-- The members whose weights reach `t`. -/
def row (t : Nat) : List ι := l.filter fun i => t ≤ w i

/-- The rows from `t` on, `n` of them. -/
def rows (t n : Nat) : List ι := (List.range' t n).flatMap (row w l)

/-- The rows that the members up to weight `n` have places in. -/
def cycle (n : Nat) : List ι := rows w l 1 n

variable {w l}

theorem mem_row {t : Nat} {i : ι} : i ∈ row w l t ↔ i ∈ l ∧ t ≤ w i := by
  rw [row, List.mem_filter, decide_eq_true_eq]

theorem rows_succ (t n : Nat) : rows w l t (n + 1) = row w l t ++ rows w l (t + 1) n := rfl

theorem mem_cycle {n : Nat} {i : ι} (h : i ∈ cycle w l n) : i ∈ l ∧ 0 < w i := by
  rw [cycle, rows, List.mem_flatMap] at h
  obtain ⟨t, ht, hi⟩ := h
  rw [List.mem_range'_1] at ht
  rw [mem_row] at hi
  exact ⟨hi.1, by omega⟩

variable [DecidableEq ι]

theorem count_row (hnodup : l.Nodup) {i : ι} (hi : i ∈ l) (t : Nat) :
    (row w l t).count i = if t ≤ w i then 1 else 0 := by
  by_cases hle : t ≤ w i
  · rw [if_pos hle]
    exact List.count_eq_one_of_mem (hnodup.filter _) (mem_row.mpr ⟨hi, hle⟩)
  · rw [if_neg hle]
    exact List.count_eq_zero_of_not_mem fun h => hle (mem_row.mp h).2

/-- A member has a place in the rows from `t` to its weight. -/
theorem count_rows (hnodup : l.Nodup) {i : ι} (hi : i ∈ l) (t n : Nat) :
    (rows w l t n).count i = min (t + n) (w i + 1) - min t (w i + 1) := by
  induction n generalizing t with
  | zero => rw [Nat.add_zero, Nat.sub_self]; rfl
  | succ n ih =>
    rw [rows_succ, List.count_append, count_row hnodup hi, ih]
    split <;> omega

theorem count_cycle (hnodup : l.Nodup) {i : ι} (hi : i ∈ l) {n : Nat} (hn : w i ≤ n) :
    (cycle w l n).count i = w i := by
  rw [cycle, count_rows hnodup hi]
  omega

/-- A cycle has as many places as all members weigh together. -/
theorem length_cycle (hnodup : l.Nodup) {n : Nat} (hn : ∀ i ∈ l, w i ≤ n) :
    (cycle w l n).length = (l.map w).sum := by
  have hsub : ∀ i ∈ (cycle w l n : Multiset ι), i ∈ l.toFinset := fun i h =>
    List.mem_toFinset.mpr (mem_cycle h).1
  rw [← List.sum_toFinset w hnodup, ← Multiset.coe_card, ← Multiset.sum_count_eq_card hsub]
  apply Finset.sum_congr rfl
  intro i hi
  have hmem : i ∈ l := List.mem_toFinset.mp hi
  rw [Multiset.coe_count, count_cycle hnodup hmem (hn i hmem)]

/-! ## Windows -/

theorem count_getElem? (s : List ι) (i : ι) :
    Nat.count (fun k => s[k]? = some i) s.length = s.count i := by
  induction s with
  | nil => rfl
  | cons a s ih =>
    have htail : Nat.count (fun k => (a :: s)[k + 1]? = some i) s.length = s.count i := ih
    rw [List.length_cons, Nat.count_succ', htail, List.count_cons]
    simp only [List.getElem?_cons_zero, Option.some.injEq, beq_iff_eq]

/-- A window of the length of a list that is repeated holds the entries of the list. -/
theorem card_window (s : List ι) (start : Nat) (i : ι) :
    ((Finset.Ico start (start + s.length)).filter fun k => s[k % s.length]? = some i).card =
      s.count i := by
  have hperiodic : Function.Periodic (fun k => s[k % s.length]? = some i) s.length := by
    intro k
    show (s[(k + s.length) % s.length]? = some i) = (s[k % s.length]? = some i)
    rw [Nat.add_mod_right]
  rw [Nat.filter_Ico_card_eq_of_periodic _ _ _ hperiodic, ← count_getElem?,
    Nat.count_eq_card_filter_range, Nat.count_eq_card_filter_range]
  apply congrArg Finset.card
  apply Finset.filter_congr
  intro k hk
  rw [Nat.mod_eq_of_lt (Finset.mem_range.mp hk)]

end RoundRobin
