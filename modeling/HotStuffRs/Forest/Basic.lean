import Mathlib.Logic.Relation
import Mathlib.Data.Fintype.Card
import Mathlib.Data.List.Chain

/-
Forests given by the parent of each node.

`up` takes a node to its parent.  `Extends up b a` says that `a` is `b` or one of its
ancestors.  As a node has one parent at most, the ancestors of a node are in line,
and in a forest without cycles the branches of two siblings are disjoint.
-/

namespace HotStuffRs
namespace Forest

open Relation

variable {α : Type} {up : α → Option α} {a b c : α}

/-- `b` is `a`, or descends from it. -/
def Extends (up : α → Option α) (b a : α) : Prop := ReflTransGen (fun x y => up x = some y) b a

/-- Going up from any node ends. -/
def Acyclic (up : α → Option α) : Prop := WellFounded fun p c => up c = some p

namespace Extends

theorem refl (a : α) : Extends up a a := ReflTransGen.refl

theorem trans (h : Extends up c b) (h' : Extends up b a) : Extends up c a :=
  ReflTransGen.trans h h'

theorem parent (h : up b = some a) : Extends up b a := .single h

theorem of_parent (h : up c = some b) (h' : Extends up b a) : Extends up c a := .head h h'

theorem iff_parent : Extends up b a ↔ b = a ∨ ∃ p, up b = some p ∧ Extends up p a :=
  ReflTransGen.cases_head_iff

/-- A node that descends from `a` does so through one of its children. -/
theorem iff_child : Extends up b a ↔ a = b ∨ ∃ c, Extends up b c ∧ up c = some a :=
  ReflTransGen.cases_tail_iff ..

/-- The ancestors of a node are in line. -/
theorem total (h : Extends up c a) (h' : Extends up c b) : Extends up a b ∨ Extends up b a := by
  refine ReflTransGen.total_of_right_unique (fun x y z hy hz => ?_) h h'
  exact Option.some.inj (hy.symm.trans hz)

/-- The nodes of a chain descend from its first one. -/
theorem of_isChain {l : List α} (h : (a :: l).IsChain fun p c => up c = some p) (hb : b ∈ a :: l) :
    Extends up b a := by
  induction l generalizing a with
  | nil =>
    obtain rfl := List.mem_singleton.mp hb
    exact refl _
  | cons c l ih =>
    rcases List.mem_cons.mp hb with rfl | hb
    · exact refl _
    · exact (ih (List.isChain_of_isChain_cons h) hb).trans (parent (h.rel_head? rfl))

/-- Where two descendants of `a` are not in line, their ways to `a` meet at a node that they
reach through different children. -/
theorem exists_fork (h : Extends up b a) (h' : Extends up c a) (hbc : ¬Extends up b c)
    (hcb : ¬Extends up c b) : ∃ p x y, up x = some p ∧ up y = some p ∧ x ≠ y ∧
      Extends up b x ∧ Extends up c y ∧ Extends up p a := by
  induction h with
  | refl => exact absurd h' hcb
  | @tail x a hbx hxa ih =>
    by_cases hcx : Extends up c x
    · obtain ⟨p, x', y, hx', hy, hne, hbx', hcy, hpx⟩ := ih hcx
      exact ⟨p, x', y, hx', hy, hne, hbx', hcy, hpx.trans (.parent hxa)⟩
    · rcases iff_child.mp h' with rfl | ⟨y, hcy, hya⟩
      · exact absurd (trans hbx (.parent hxa)) hbc
      · refine ⟨a, x, y, hxa, hya, ?_, hbx, hcy, .refl a⟩
        rintro rfl
        exact hcx hcy

theorem mono {up' : α → Option α} (h : Extends up b a)
    (hsub : ∀ x p, up x = some p → up' x = some p) : Extends up' b a :=
  ReflTransGen.mono (fun x p => hsub x p) _ _ h

/-- A change of parents off the way from `b` to `a` does not matter. -/
theorem congr {up' : α → Option α} (h : Extends up b a)
    (heq : ∀ x, Extends up b x → x ≠ a → up' x = up x) : Extends up' b a := by
  induction h using ReflTransGen.head_induction_on with
  | refl => exact .refl _
  | @head x y hxy hya ih =>
    by_cases hxa : x = a
    · rw [hxa]
      exact .refl _
    · refine .of_parent ((heq x (.refl x) hxa).trans hxy) (ih fun z hz => heq z ?_)
      exact .of_parent hxy hz

theorem isChain_concat {r c : α} {l : List α} :
    ((r :: (l ++ [c])).IsChain fun p c => up c = some p) ↔
      ((r :: l).IsChain fun p c => up c = some p) ∧ up c = some (l.getLastD r) := by
  have hlast : (r :: l).getLast? = some (l.getLastD r) := by
    rw [List.getLast?_cons, ← List.getLastD_eq_getLast?]
  rw [← List.cons_append, List.isChain_append, hlast]
  simp

/-- The parent of the last node of a chain ends the chain before it. -/
theorem parent_of_concat {r c : α} {l : List α}
    (h : (r :: (l ++ [c])).IsChain fun p c => up c = some p) :
    (r :: l).IsChain (fun p c => up c = some p) ∧ up c = some (l.getLastD r) :=
  isChain_concat.mp h

/-- A chain that ends in an ancestor goes on to the descendant. -/
theorem exists_isChain {r : α} {l : List α} (h : Extends up b (l.getLastD r))
    (hl : (r :: l).IsChain fun p c => up c = some p) :
    ∃ l', ((r :: (l ++ l')).IsChain fun p c => up c = some p) ∧ (l ++ l').getLastD r = b := by
  induction h using ReflTransGen.head_induction_on with
  | refl => exact ⟨[], by simpa using hl, by simp⟩
  | @head b p hb _ ih =>
    obtain ⟨l', hchain, hlast⟩ := ih
    refine ⟨l' ++ [b], ?_, ?_⟩
    · rw [← List.append_assoc]
      exact isChain_concat.mpr ⟨hchain, hlast.symm ▸ hb⟩
    · rw [← List.append_assoc, List.getLastD_concat]

theorem exists_parent_of_mem {r : α} {l : List α} (h : (r :: l).IsChain fun p c => up c = some p)
    (hb : b ∈ l) : ∃ p, up b = some p := by
  obtain ⟨l₁, l₂, rfl⟩ := List.append_of_mem hb
  rw [List.append_cons, ← List.cons_append] at h
  exact ⟨_, (parent_of_concat h.left_of_append).2⟩

/-- Two chains that start at the same root and end in the same node are the same. -/
theorem eq_of_getLastD {r : α} (hr : up r = none) {l l' : List α}
    (h : (r :: l).IsChain fun p c => up c = some p)
    (h' : (r :: l').IsChain fun p c => up c = some p) (hlast : l.getLastD r = l'.getLastD r) :
    l = l' := by
  induction l using List.reverseRecOn generalizing l' with
  | nil =>
    rcases List.eq_nil_or_concat l' with rfl | ⟨l', c, rfl⟩
    · rfl
    · rw [List.concat_eq_append] at h' hlast
      obtain rfl : r = c := by simpa using hlast
      cases hr.symm.trans (parent_of_concat h').2
  | append_singleton l c ih =>
    obtain ⟨hl, hc⟩ := parent_of_concat h
    rcases List.eq_nil_or_concat l' with rfl | ⟨l', c', rfl⟩
    · obtain rfl : c = r := by simpa using hlast
      cases hr.symm.trans hc
    · rw [List.concat_eq_append] at h' hlast ⊢
      obtain rfl : c = c' := by simpa using hlast
      obtain ⟨hl', hc'⟩ := parent_of_concat h'
      rw [ih hl hl' (Option.some.inj (hc.symm.trans hc'))]

/-- Of two chains that start at the same root, the one whose last node is extended by that of
the other is the beginning of the other. -/
theorem isPrefix_of_getLastD {r : α} (hr : up r = none) {l l' : List α}
    (h : (r :: l).IsChain fun p c => up c = some p)
    (h' : (r :: l').IsChain fun p c => up c = some p)
    (hext : Extends up (l'.getLastD r) (l.getLastD r)) : l <+: l' := by
  induction l' using List.reverseRecOn with
  | nil =>
    rcases iff_parent.mp hext with hlast | ⟨p, hp, -⟩
    · exact (eq_of_getLastD hr h h' hlast.symm).symm ▸ List.prefix_rfl
    · cases hr.symm.trans hp
  | append_singleton l' c ih =>
    rcases iff_parent.mp hext with hlast | ⟨p, hp, hpa⟩
    · exact (eq_of_getLastD hr h h' hlast.symm).symm ▸ List.prefix_rfl
    · obtain ⟨hl', hc⟩ := parent_of_concat h'
      rw [List.getLastD_concat, hc] at hp
      rw [← Option.some.inj hp] at hpa
      exact (ih hl' hpa).trans (List.prefix_append ..)

end Extends

namespace Acyclic

variable (hup : Acyclic up)
include hup

theorem not_extends_parent (h : up b = some a) : ¬Extends up a b := by
  intro hab
  -- A least node of the cycle would have its parent in it.
  induction b using hup.induction generalizing a with
  | _ b ih =>
    rcases Extends.iff_parent.mp hab with rfl | ⟨p, hp, hpb⟩
    · exact ih _ h h (.refl _)
    · exact ih a h hp (hpb.trans (.parent h))

/-- Induction on a node, with the claim for all that its parent extends. -/
theorem induction_ancestors {P : α → Prop}
    (h : ∀ b, (∀ p a, up b = some p → Extends up p a → P a) → P b) (b : α) : P b := by
  suffices hall : ∀ a, Extends up b a → P a from hall b (.refl b)
  induction b using hup.induction with
  | _ b ih =>
    intro a hba
    rcases Extends.iff_parent.mp hba with rfl | ⟨p, hp, hpa⟩
    · exact h b fun p a hp hpa => ih p hp a hpa
    · exact ih p hp a hpa

/-- The last node of a chain comes only once. -/
theorem notMem_of_concat {r : α} {l : List α}
    (h : (r :: (l ++ [b])).IsChain fun p c => up c = some p) : b ∉ l := by
  intro hb
  obtain ⟨hl, hparent⟩ := Extends.parent_of_concat h
  obtain ⟨l₁, l₂, rfl⟩ := List.append_of_mem hb
  rw [← List.cons_append] at hl
  have hsome := List.getLast?_eq_some_getLast (List.cons_ne_nil b l₂)
  have hlast : (l₁ ++ b :: l₂).getLastD r ∈ b :: l₂ := by
    rw [List.getLastD_eq_getLast?, List.getLast?_append_cons, hsome]
    exact List.mem_of_getLast? hsome
  exact hup.not_extends_parent hparent (.of_isChain hl.right_of_append hlast)

theorem antisymm (h : Extends up b a) (h' : Extends up a b) : a = b := by
  rcases Extends.iff_parent.mp h with rfl | ⟨p, hp, hpa⟩
  · rfl
  · exact (hup.not_extends_parent hp (hpa.trans h')).elim

/-- The branches of two siblings are disjoint. -/
theorem eq_of_siblings {p : α} (ha : up a = some p) (hb : up b = some p) (hca : Extends up c a)
    (hcb : Extends up c b) : a = b := by
  rcases hca.total hcb with h | h
  · rcases Extends.iff_parent.mp h with rfl | ⟨q, hq, hqb⟩
    · rfl
    · obtain rfl : p = q := Option.some.inj (ha.symm.trans hq)
      exact (hup.not_extends_parent hb hqb).elim
  · rcases Extends.iff_parent.mp h with rfl | ⟨q, hq, hqa⟩
    · rfl
    · obtain rfl : p = q := Option.some.inj (hb.symm.trans hq)
      exact (hup.not_extends_parent ha hqa).elim

/-- Giving a parent to a node that no other node has for a parent makes no cycle. -/
theorem insert_leaf {up' : α → Option α} {leaf p : α} (hleaf : ∀ x, up x ≠ some leaf)
    (hp : p ≠ leaf) (hnew : up' leaf = some p) (hold : ∀ x, x ≠ leaf → up' x = up x) :
    Acyclic up' := by
  have hacc : ∀ x, x ≠ leaf → Acc (fun p c => up' c = some p) x := by
    intro x
    induction x using hup.induction with
    | _ x ih =>
      intro hx
      refine ⟨x, fun y hy => ih y ?_ ?_⟩
      · rwa [← hold x hx]
      · rintro rfl
        exact hleaf x (hold x hx ▸ hy)
  refine ⟨fun x => ?_⟩
  by_cases hx : x = leaf
  · refine ⟨x, fun y hy => hacc y ?_⟩
    rw [hx, hnew] at hy
    rwa [← Option.some.inj hy]
  · exact hacc x hx

/-- Taking nodes away makes no cycle. -/
theorem mono {up' : α → Option α} (hsub : ∀ x p, up' x = some p → up x = some p) : Acyclic up' :=
  Subrelation.wf (fun h => hsub _ _ h) hup

/-- In a finite forest going down ends, too. -/
theorem down [Finite α] : WellFounded fun c p => up c = some p := by
  have hirrefl : Std.Irrefl (TransGen fun c p => up c = some p) := by
    refine ⟨fun x hx => ?_⟩
    obtain ⟨y, hxy, hyx⟩ := TransGen.head'_iff.mp hx
    exact hup.not_extends_parent hxy hyx
  have hwf := Finite.wellFounded_of_trans_of_irrefl (TransGen fun c p : α => up c = some p)
  have hsub : Subrelation (fun c p : α => up c = some p) (TransGen fun c p => up c = some p) :=
    fun h => .single h
  exact hsub.wf hwf

end Acyclic

end Forest
end HotStuffRs
