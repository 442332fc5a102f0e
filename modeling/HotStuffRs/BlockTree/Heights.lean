import HotStuffRs.BlockTree.Initial

/-
The heights of the blocks of a tree.

`propose` gives a block the height after that of its parent.  Where all blocks have such a
height, heights grow along the justify links, so that a block is above another one that it
extends.
-/

namespace HotStuffRs
namespace BlockTree

open Forest

variable {s s' : BlockTree}

/-- The height that `propose` gives to a block with the given justify. -/
def childHeight (s : BlockTree) (justify : PhaseCertificate) : Option Nat :=
  if justify.isGenesisPc then some 0
  else (s (.blockHeight justify.block)).map fun parentHeight => parentHeight.val + 1

/-- Heights count justify links. -/
def HeightsCount (s : BlockTree) : Prop :=
  ∀ b justify height, s (.blockJustify b) = some justify → s (.blockHeight b) = some height →
    s.childHeight justify = some height.val

theorem childHeight_congr {justify : PhaseCertificate}
    (h : justify = .genesisPc ∨ s' (.blockHeight justify.block) = s (.blockHeight justify.block)) :
    s'.childHeight justify = s.childHeight justify := by
  unfold childHeight
  rcases h with rfl | h
  · rfl
  · rw [h]

/-- A block is one above its parent. -/
theorem HeightsCount.of_genesisPc (h : s.HeightsCount) {b : CryptoHash} {height : BlockHeight}
    (hj : s (.blockJustify b) = some .genesisPc) (hheight : s (.blockHeight b) = some height) :
    height.val = 0 := by
  have hchild := h b .genesisPc height hj hheight
  rw [childHeight, if_pos (PhaseCertificate.isGenesisPc_iff.mpr rfl), Option.some.injEq] at hchild
  exact hchild.symm

theorem HeightsCount.of_up (wf : s.WellFormed) (h : s.HeightsCount) {b p : CryptoHash}
    {height parentHeight : BlockHeight} (hup : s.up b = some p)
    (hb : s (.blockHeight b) = some height) (hp : s (.blockHeight p) = some parentHeight) :
    height.val = parentHeight.val + 1 := by
  obtain ⟨justify, hjustify, rfl⟩ := up_eq_some.mp hup
  have hchild := h b justify height hjustify hb
  unfold childHeight at hchild
  split at hchild
  · rename_i hgenesis
    obtain rfl := PhaseCertificate.isGenesisPc_iff.mp hgenesis
    exact absurd (wf.stored_of_height hp) wf.genesis
  · rw [hp] at hchild
    exact (Option.some.inj hchild).symm

/-- A block is above every other one that it extends. -/
theorem HeightsCount.lt_of_extends (wf : s.WellFormed) (h : s.HeightsCount) {b a : CryptoHash}
    {height height' : BlockHeight} (hext : Extends s.up b a) (hne : b ≠ a)
    (hb : s (.blockHeight b) = some height) (ha : s (.blockHeight a) = some height') :
    height' < height := by
  induction hext using Relation.ReflTransGen.head_induction_on generalizing height with
  | refl => exact (hne rfl).elim
  | @head b c hbc hca ih =>
    by_cases hc : c = a
    · subst hc
      have hsucc : height.val = height'.val + 1 := h.of_up wf hbc hb ha
      exact Fin.lt_def.mpr (by omega)
    · obtain ⟨middle, hmiddle⟩ := wf.exists_height (Stored.of_extends hca hc)
      have hlt : height' < middle := ih hc hmiddle
      have hsucc : height.val = middle.val + 1 := h.of_up wf hbc hb hmiddle
      exact Fin.lt_def.mpr (by rw [Fin.lt_def] at hlt; omega)

theorem HeightsCount.congr (h : s.HeightsCount)
    (hblock : ∀ v x, v.block? = some x → s' v = s v) : s'.HeightsCount := by
  intro b justify height hjustify hheight
  rw [hblock _ b rfl] at hjustify hheight
  rw [childHeight_congr (.inr (hblock _ justify.block rfl))]
  exact h b justify height hjustify hheight

theorem heightsCount_initial {appState : AppStateUpdates} {vss : ValidatorSetState} :
    (initial appState vss).HeightsCount := by
  intro b justify _ hjustify
  rw [initial_of_block? rfl] at hjustify
  cases hjustify

/-- Deleting blocks does no harm, as long as no block loses its parent. -/
theorem HeightsCount.of_kept (h : s.HeightsCount) (wf' : s'.WellFormed)
    (hkept : ∀ b, s'.Stored b → s' (.blockJustify b) = s (.blockJustify b) ∧
      s' (.blockHeight b) = s (.blockHeight b)) : s'.HeightsCount := by
  intro b justify height hjustify hheight
  obtain ⟨hjustify', hheight'⟩ := hkept b (wf'.stored_of_height hheight)
  rw [childHeight_congr]
  · rw [hjustify'] at hjustify
    rw [hheight'] at hheight
    exact h b justify height hjustify hheight
  · exact (wf'.parent b justify hjustify).imp_right fun hparent => (hkept _ hparent).2

theorem HeightsCount.commit (wf : s.WellFormed) (h : s.HeightsCount) {target : CryptoHash}
    {us : List CryptoHash} {wb : WriteBatch} (hcommits : Commits s target us wb) :
    HeightsCount (s.write wb) := by
  refine h.of_kept (hcommits.wellFormed wf) fun b hb => ?_
  have hnot := ((hcommits.stored_write wf).mp hb).2
  exact ⟨hcommits.field_write rfl rfl hnot, hcommits.field_write rfl rfl hnot⟩

/-- Acting upon a certificate deletes blocks at most, and no parents of blocks that stay. -/
theorem HeightsCount.update (wf : s.WellFormed) (h : s.HeightsCount) {justify : PhaseCertificate}
    {fuel : Nat} {wb : WriteBatch} {updates : Option ValidatorSetUpdates}
    (hupdate : s.updateBatch fuel justify = .ok (wb, updates)) : HeightsCount (s.write wb) := by
  have wf' : WellFormed (s.write wb) := wf.update hupdate
  refine h.of_kept wf' fun b hb => ⟨?_, ?_⟩
  · refine (field_write_update hupdate (v := .blockJustify b) rfl).resolve_right fun hgone => ?_
    rw [Stored, hgone] at hb
    cases hb
  · refine (field_write_update hupdate (v := .blockHeight b) rfl).resolve_right fun hgone => ?_
    obtain ⟨height, hheight⟩ := wf'.exists_height hb
    cases hgone.symm.trans hheight

section

variable {block : Block} {appStateUpdates : Option AppStateUpdates}
variable {validatorSetUpdates : Option ValidatorSetUpdates}

theorem HeightsCount.insert (wf : s.WellFormed) (h : s.HeightsCount) (hfresh : s.Fresh block)
    (hparent : block.justify = .genesisPc ∨ s.Stored block.justify.block)
    (hheight : s.childHeight block.justify = some block.height.val) :
    (s.insert block appStateUpdates validatorSetUpdates).HeightsCount := by
  -- The height of a parent is the same before and after.
  have hchild : ∀ justify : PhaseCertificate, justify = .genesisPc ∨ s.Stored justify.block →
      (s.insert block appStateUpdates validatorSetUpdates).childHeight justify =
        s.childHeight justify := by
    intro justify hstored
    refine childHeight_congr (hstored.imp_right fun hstored => ?_)
    obtain ⟨parentHeight, hparentHeight⟩ := wf.exists_height hstored
    rw [hparentHeight]
    exact height_insert_of_fresh wf hfresh hparentHeight
  intro b justify height hjustify hb
  by_cases hhash : b = block.hash
  · subst hhash
    rw [justify_insert, Option.some.injEq] at hjustify
    rw [height_insert, Option.some.injEq] at hb
    subst hjustify hb
    rw [hchild _ hparent]
    exact hheight
  · rw [field_insert_of_ne rfl rfl hhash] at hjustify hb
    rw [hchild _ (wf.parent b justify hjustify)]
    exact h b justify height hjustify hb

end

/-- What is asked of a block and the tree that it is inserted into: the block has the height
that `propose` would have given to it, and its hash is not that of another block. -/
structure InsertedAbove (s : BlockTree) (block : Block) : Prop where
  fresh : s.Fresh block
  height : s.childHeight block.justify = some block.height.val

end BlockTree

end HotStuffRs
