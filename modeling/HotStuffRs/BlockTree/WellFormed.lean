import HotStuffRs.BlockTree.Getters
import HotStuffRs.Forest.Basic

/-
Well-formed block trees.

The blocks of a tree form a forest: the justify of a block names its parent, and the
children list of a block repeats these links the other way.  A block whose justify is
the Genesis PC hangs below the genesis placeholder, block `0`, which is not stored.
-/

namespace HotStuffRs
namespace BlockTree

open Forest

variable (s : BlockTree)

/-- The block that the justify of `b` is about, be it the genesis placeholder. -/
def up (b : CryptoHash) : Option CryptoHash := (s (.blockJustify b)).map PhaseCertificate.block

def childrenOf (p : CryptoHash) : ChildrenList := (s (.blockToChildren p)).getD []

/-- A block is stored if its fields are. -/
def Stored (b : CryptoHash) : Prop := (s (.blockJustify b)).isSome = true

/-- The fields of a block are all there or all missing, and the links between blocks
form a forest that the children lists mirror. -/
structure WellFormed (s : BlockTree) : Prop where
  height : ∀ b, (s (.blockHeight b)).isSome = true ↔ s.Stored b
  dataHash : ∀ b, (s (.blockDataHash b)).isSome = true ↔ s.Stored b
  dataLen : ∀ b, (s (.blockDataLen b)).isSome = true ↔ s.Stored b
  datum : ∀ b len, s (.blockDataLen b) = some len → ∀ i < len.val,
    (s (.blockDatum b (Fin.ofNat _ i))).isSome = true
  genesis : ¬s.Stored 0
  parent : ∀ b j, s (.blockJustify b) = some j → j = .genesisPc ∨ s.Stored j.block
  acyclic : Acyclic s.up
  mem_children : ∀ p c, c ∈ s.childrenOf p ↔ s.up c = some p

variable {s}

theorem up_eq_some {b p : CryptoHash} :
    s.up b = some p ↔ ∃ j, s (.blockJustify b) = some j ∧ j.block = p := by
  simp [up]

theorem Stored.of_up {b p : CryptoHash} (h : s.up b = some p) : s.Stored b := by
  obtain ⟨j, hj, -⟩ := up_eq_some.mp h
  simp [Stored, hj]

theorem stored_iff_up {b : CryptoHash} : s.Stored b ↔ ∃ p, s.up b = some p := by
  simp [Stored, up, Option.isSome_iff_exists]

theorem parent_eq_some {b p : CryptoHash} :
    s.parent b = some p ↔ ∃ j, s (.blockJustify b) = some j ∧ j ≠ .genesisPc ∧ j.block = p := by
  simp only [BlockTree.parent, Option.bind_eq_some_iff]
  refine exists_congr fun j => and_congr_right fun _ => ?_
  by_cases hj : j = .genesisPc
  · simp [hj]
  · simp [hj]

theorem up_of_parent {b p : CryptoHash} (h : s.parent b = some p) : s.up b = some p := by
  obtain ⟨j, hj, -, rfl⟩ := parent_eq_some.mp h
  exact up_eq_some.mpr ⟨j, hj, rfl⟩

/-- What descends from something is stored, unless it is that thing. -/
theorem Stored.of_extends {b a : CryptoHash} (h : Extends s.up b a) (hne : b ≠ a) :
    s.Stored b := by
  rcases Extends.iff_parent.mp h with rfl | ⟨p, hp, -⟩
  · exact (hne rfl).elim
  · exact .of_up hp

namespace WellFormed

variable (wf : s.WellFormed)
include wf

theorem stored_of_height {b : CryptoHash} {h : BlockHeight} (hb : s (.blockHeight b) = some h) :
    s.Stored b :=
  (wf.height b).mp (by rw [hb]; rfl)

theorem exists_height {b : CryptoHash} (hb : s.Stored b) : ∃ h, s (.blockHeight b) = some h :=
  Option.isSome_iff_exists.mp ((wf.height b).mpr hb)

theorem stored_of_parent {b p : CryptoHash} (h : s.parent b = some p) : s.Stored p := by
  obtain ⟨j, hj, hne, rfl⟩ := parent_eq_some.mp h
  exact (wf.parent b j hj).resolve_left hne

/-- A block without a parent hangs below the genesis placeholder. -/
theorem parent_eq_none {b : CryptoHash} (hb : s.Stored b) : s.parent b = none ↔ s.up b = some 0 := by
  obtain ⟨j, hj⟩ := Option.isSome_iff_exists.mp hb
  constructor
  · intro h
    have hgenesis : j = .genesisPc := by
      by_contra hne
      rw [parent_eq_some.mpr ⟨j, hj, hne, rfl⟩] at h
      cases h
    rw [up, hj, hgenesis]
    rfl
  · intro h
    cases hp : s.parent b with
    | none => rfl
    | some p =>
      have hzero : p = 0 := Option.some.inj ((up_of_parent hp).symm.trans h)
      exact (wf.genesis (hzero ▸ wf.stored_of_parent hp)).elim

theorem parent_of_up {b p : CryptoHash} (h : s.up b = some p) (hp : p ≠ 0) :
    s.parent b = some p := by
  cases hb : s.parent b with
  | none =>
    rw [wf.parent_eq_none (.of_up h)] at hb
    exact (hp (Option.some.inj (h.symm.trans hb))).elim
  | some q => rw [← h, up_of_parent hb]

theorem exists_dataLen {b : CryptoHash} (hb : s.Stored b) :
    ∃ len, s (.blockDataLen b) = some len :=
  Option.isSome_iff_exists.mp ((wf.dataLen b).mpr hb)

/-- In a well-formed tree every stored block can be read. -/
theorem exists_block {b : CryptoHash} (hb : s.Stored b) :
    ∃ block, s.kv.block b = .ok (some block) ∧ s (.blockJustify b) = some block.justify := by
  obtain ⟨height, hheight⟩ := wf.exists_height hb
  obtain ⟨justify, hjustify⟩ := Option.isSome_iff_exists.mp hb
  obtain ⟨dataHash, hdataHash⟩ := Option.isSome_iff_exists.mp ((wf.dataHash b).mpr hb)
  obtain ⟨len, hlen⟩ := wf.exists_dataLen hb
  have hdata := KVGet.blockData_of_datums ((kv_blockDataLen b).trans (congrArg _ hlen))
    (wf.datum b len hlen)
  exact ⟨_, KVGet.block_of_fields ((kv_blockHeight b).trans (congrArg _ hheight))
    (kv_blockJustify_eq_ok.mpr hjustify) ((kv_blockDataHash b).trans (congrArg _ hdataHash)) hdata,
    hjustify⟩

/-- What can be read is stored. -/
theorem stored_of_block {b : CryptoHash} {block : Block} (h : s.kv.block b = .ok (some block)) :
    s.Stored b := by
  cases hb : s (.blockHeight b) with
  | some height => exact wf.stored_of_height hb
  | none =>
    rw [KVGet.block_of_no_height ((kv_blockHeight b).trans (congrArg _ hb))] at h
    cases h

/-- In a well-formed tree `contains` finds every stored block. -/
theorem contains_iff {b : CryptoHash} : s.kv.contains b = true ↔ s.Stored b := by
  rw [KVGet.contains]
  constructor
  · intro h
    cases hblock : s.kv.block b with
    | error e =>
      rw [hblock] at h
      cases h
    | ok found =>
      rw [hblock] at h
      obtain ⟨block, rfl⟩ := Option.isSome_iff_exists.mp h
      exact wf.stored_of_block hblock
  · intro h
    obtain ⟨block, hblock, -⟩ := wf.exists_block h
    rw [hblock]
    rfl

end WellFormed

end BlockTree
end HotStuffRs
