import HotStuffRs.BlockTree.Initial
import HotStuffRs.BlockTree.Update

/-
Children lists without repetitions.

A well-formed tree lists the children of each block, but may list one of them twice: inserting a
block that is there already lists it once more.
-/

namespace HotStuffRs
namespace BlockTree

open Kv Forest

/-- A well-formed tree whose children lists have no repetitions. -/
structure Mirrored (s : BlockTree) : Prop where
  wf : s.WellFormed
  nodup : ∀ p, (s.childrenOf p).Nodup

variable {s : BlockTree}

theorem Mirrored.congr (h : s.Mirrored) {s' : BlockTree}
    (hkeep : ∀ v x, v.block? = some x → s' v = s v) : s'.Mirrored where
  wf := h.wf.congr hkeep
  nodup p := by
    have hp : s'.childrenOf p = s.childrenOf p := by
      rw [childrenOf, hkeep _ p rfl]
      rfl
    rw [hp]
    exact h.nodup p

section insert

variable {block : Block} {appStateUpdates : Option AppStateUpdates}
  {validatorSetUpdates : Option ValidatorSetUpdates}

/-- A block that is not in the tree is in no children list. -/
theorem Mirrored.insert (h : s.Mirrored) (hhash : block.hash ≠ 0) (hnew : ¬s.Stored block.hash)
    (hparent : block.justify = .genesisPc ∨ s.Stored block.justify.block) :
    (s.insert block appStateUpdates validatorSetUpdates).Mirrored where
  wf := h.wf.insert hhash hparent fun j hj => absurd (by rw [Stored, hj]; rfl) hnew
  nodup p := by
    rw [children_insert]
    split
    · refine List.nodup_append.mpr ⟨h.nodup p, List.nodup_singleton _, fun c hc c' hc' heq => ?_⟩
      obtain rfl := List.mem_singleton.mp hc'
      subst heq
      exact hnew (.of_up ((h.wf.mem_children p _).mp hc))
    · exact h.nodup p

/-- A block that is in the tree is listed once more. -/
theorem not_mirrored_insert (wf : s.WellFormed) {j : PhaseCertificate}
    (hstored : s (.blockJustify block.hash) = some j) (hsame : j = block.justify) :
    ¬(s.insert block appStateUpdates validatorSetUpdates).Mirrored := by
  intro h
  have hmem : block.hash ∈ s.childrenOf block.justify.block :=
    (wf.mem_children _ _).mpr (up_eq_some.mpr ⟨j, hstored, by rw [hsame]⟩)
  have hnodup := h.nodup block.justify.block
  rw [children_insert, if_pos rfl, List.nodup_append] at hnodup
  exact hnodup.2.2 _ hmem _ (List.mem_singleton_self _) rfl

end insert

/-- Pruning takes whole lists away, and committing leaves a single child. -/
theorem Commits.mirrored {target : CryptoHash} {us : List CryptoHash} {wb : WriteBatch}
    (hcommits : Commits s target us wb) (h : s.Mirrored) : Mirrored (s.write wb) where
  wf := hcommits.wellFormed h.wf
  nodup p := by
    by_cases hpruned : Prunes s us p
    · rw [childrenOf, hcommits.pruned_gone h.wf hpruned rfl rfl]
      exact List.nodup_nil
    · by_cases hcommitted : ∃ b ∈ us, s.up b = some p
      · obtain ⟨b, hb, hp⟩ := hcommitted
        rw [childrenOf, hcommits.children_committed h.wf hb hp]
        exact List.nodup_singleton b
      · have hp : ∀ b ∈ us, s.up b ≠ some p := fun b hb hup => hcommitted ⟨b, hb, hup⟩
        rw [childrenOf, hcommits.children_kept hpruned hp]
        exact h.nodup p

theorem Mirrored.update (h : s.Mirrored) {fuel : Nat} {justify : PhaseCertificate} {wb : WriteBatch}
    {updates : Option ValidatorSetUpdates} (hupdate : s.updateBatch fuel justify = .ok (wb, updates)) :
    Mirrored (s.write wb) := by
  obtain ⟨us, commitBatch, hcommits, hkept, -⟩ := commitsFor_of_updateBatch h.wf hupdate
  have hmirrored : Mirrored (s.write commitBatch) := by
    rcases hcommits with ⟨target, -, hcommits⟩ | ⟨-, -, rfl⟩
    · exact hcommits.mirrored h
    · exact h
  refine hmirrored.congr fun v x hv => hkept v (Var.isProgress_of_block? hv) ?_
  rintro rfl
  cases hv

theorem mirrored_initial {appState : AppStateUpdates} {vss : ValidatorSetState} :
    (initial appState vss).Mirrored where
  wf := wellFormed_initial
  nodup p := by
    rw [childrenOf, initial_of_block? rfl]
    exact List.nodup_nil

/-! ## Depth-first search -/

/-- The search finds every block once, if the branches of the blocks on the stack are disjoint. -/
theorem Mirrored.nodup_depthFirst (h : s.Mirrored) {fuel : Nat} {stack branch : List CryptoHash}
    (hbranch : depthFirst s fuel stack = .ok branch)
    (hdisjoint : stack.Pairwise fun a b => ∀ x, Extends s.up x a → ¬Extends s.up x b) :
    branch.Nodup := by
  induction fuel generalizing stack branch with
  | zero =>
    cases stack with
    | nil =>
      obtain rfl : [] = branch := by simpa using hbranch
      exact List.nodup_nil
    | cons b stack => simp [depthFirst] at hbranch
  | succ fuel ih =>
    cases stack with
    | nil =>
      obtain rfl : [] = branch := by simpa using hbranch
      exact List.nodup_nil
    | cons b stack =>
      obtain ⟨_, rest, hfuel, hrest, rfl⟩ := depthFirst_cons_eq_ok.mp hbranch
      cases hfuel
      obtain ⟨hb, hstack⟩ := List.pairwise_cons.mp hdisjoint
      have hchild : ∀ c ∈ (s.childrenOf b).reverse, s.up c = some b := fun c hc =>
        (h.wf.mem_children b c).mp (List.mem_reverse.mp hc)
      refine List.nodup_cons.mpr ⟨fun hmem => ?_, ih hrest (List.pairwise_append.mpr ⟨?_, hstack, ?_⟩)⟩
      · obtain ⟨root, hroot, hextends⟩ := (mem_depthFirst h.wf hrest).mp hmem
        rcases List.mem_append.mp hroot with hroot | hroot
        · exact h.wf.acyclic.not_extends_parent (hchild root hroot) hextends
        · exact hb root hroot b (.refl b) hextends
      · refine List.Pairwise.imp_of_mem (fun {c c'} hc hc' hne x hx hx' => hne ?_)
          (List.nodup_reverse.mpr (h.nodup b))
        exact h.wf.acyclic.eq_of_siblings (hchild c hc) (hchild c' hc') hx hx'
      · intro c hc root hroot x hx
        exact hb root hroot x (hx.trans (.parent (hchild c hc)))

/-- The branch of a block ends, and is the block and its descendants, each once. -/
theorem Mirrored.blocksInBranch (h : s.Mirrored) (root : CryptoHash) :
    ∃ branch, Result.Eventually (fun fuel => s.blocksInBranch fuel root) branch ∧
      branch.Nodup ∧ ∀ x, x ∈ branch ↔ Extends s.up x root := by
  obtain ⟨branch, hbranch⟩ := eventually_depthFirst h.wf [root]
  obtain ⟨n, hn⟩ := hbranch
  exact ⟨branch, ⟨n, hn⟩, h.nodup_depthFirst (hn n le_rfl) (List.pairwise_singleton _ _),
    fun x => mem_blocksInBranch h.wf (hn n le_rfl)⟩

end BlockTree
end HotStuffRs
