import Mathlib.Algebra.BigOperators.Group.Finset.Basic
import Mathlib.Algebra.Order.BigOperators.Group.Finset

namespace Quorum

variable {ι : Type} {w : ι → Nat} {all s t byzantine : Finset ι} {i : ι}

/-- The weight of a set of members. -/
def weight (w : ι → Nat) (s : Finset ι) : Nat := ∑ i ∈ s, w i

/-- The least weight of a quorum of members who weigh `total` together. -/
def threshold (total : Nat) : Nat := total * 2 / 3 + 1

@[simp] theorem weight_empty : weight w ∅ = 0 := Finset.sum_empty

theorem weight_mono (h : s ⊆ t) : weight w s ≤ weight w t := Finset.sum_le_sum_of_subset h

theorem threshold_pos (total : Nat) : 0 < threshold total := Nat.succ_pos _

theorem threshold_le {total : Nat} (h : 0 < total) : threshold total ≤ total := by
  unfold threshold
  omega

variable [DecidableEq ι]

theorem weight_insert (h : i ∉ s) : weight w (insert i s) = weight w s + w i := by
  rw [weight, Finset.sum_insert h, Nat.add_comm]
  rfl

theorem weight_sdiff_add (h : s ⊆ t) : weight w (t \ s) + weight w s = weight w t :=
  Finset.sum_sdiff h

/-- Two sets overlap by as much as they exceed the whole together. -/
theorem weight_add_le (hs : s ⊆ all) (ht : t ⊆ all) :
    weight w s + weight w t ≤ weight w all + weight w (s ∩ t) := by
  have hunion : weight w (s ∪ t) ≤ weight w all := weight_mono (Finset.union_subset hs ht)
  have hsum : weight w (s ∪ t) + weight w (s ∩ t) = weight w s + weight w t :=
    Finset.sum_union_inter
  omega

/-- Two quorums share a member who is not Byzantine. -/
theorem exists_honest_common (hbyz : 3 * weight w (all ∩ byzantine) < weight w all)
    (hs : s ⊆ all) (ht : t ⊆ all) (hqs : threshold (weight w all) ≤ weight w s)
    (hqt : threshold (weight w all) ≤ weight w t) : ∃ i ∈ s ∩ t, i ∉ byzantine := by
  by_contra hno
  have hsub : s ∩ t ⊆ all ∩ byzantine := by
    intro i hi
    have hall : i ∈ all := hs (Finset.mem_inter.mp hi).1
    by_contra hi'
    exact hno ⟨i, hi, fun hbyz => hi' (Finset.mem_inter.mpr ⟨hall, hbyz⟩)⟩
  have hinter : weight w (s ∩ t) ≤ weight w (all ∩ byzantine) := weight_mono hsub
  have hsum := weight_add_le (w := w) hs ht
  unfold threshold at hqs hqt
  omega

/-- The members who are not Byzantine are a quorum. -/
theorem threshold_le_honest (hbyz : 3 * weight w (all ∩ byzantine) < weight w all) :
    threshold (weight w all) ≤ weight w (all \ byzantine) := by
  have hsum : weight w (all \ (all ∩ byzantine)) + weight w (all ∩ byzantine) = weight w all :=
    weight_sdiff_add Finset.inter_subset_left
  rw [Finset.sdiff_inter_self_left] at hsum
  unfold threshold
  omega

end Quorum
