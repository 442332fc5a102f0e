import HotStuffRs.BlockTree.Children
import HotStuffRs.Replica.Repropose

/-
The children lists of a replica's block tree, as long as no block is inserted again.
-/

namespace HotStuffRs
namespace Protocol

open BlockTree Forest

variable {cr : Crypto} {config : Configuration} {apps : App → Prop}

/-- The block is not in the tree, and its hash is not that of the genesis placeholder. -/
def New (s : BlockTree) (block : Block) : Prop := block.hash ≠ 0 ∧ ¬s.Stored block.hash

theorem mirrored_of_history {appState : AppStateUpdates} {vss : ValidatorSetState}
    {log : List Event} (h : History cr config apps (initial appState vss) log)
    (hnew : Inserted (initial appState vss) (fun s block _ => New s block) log) :
    ((initial appState vss).replay log).Mirrored := by
  refine history_invariant h hnew mirrored_initial ?_ ?_ ?_
  · intro s block _ _ _ hs _ hsafe _ _ hblock
    exact hs.insert hblock.1 hblock.2 (hs.wf.parent_of_safeBlock hsafe)
  · exact fun hs hupdate => hs.update hupdate
  · exact fun hs hv => hs.congr fun _ _ hv' => block_note hv hv'

/-- In every history that inserts no block twice, the children list of a block has each stored
block with a justify about it once and no other, and the branch of a block ends, and is the block
and its descendants, each once. -/
theorem children_mirror_justifies {appState : AppStateUpdates} {vss : ValidatorSetState}
    {log : List Event} (h : History cr config apps (initial appState vss) log)
    (hnew : Inserted (initial appState vss) (fun s block _ => New s block) log) :
    let s := (initial appState vss).replay log
    (∀ p, (s.childrenOf p).Nodup ∧ ∀ c, c ∈ s.childrenOf p ↔
      ∃ justify, s (.blockJustify c) = some justify ∧ justify.block = p) ∧
    ∀ root, ∃ branch, Result.Eventually (fun fuel => s.blocksInBranch fuel root) branch ∧
      branch.Nodup ∧ ∀ x, x ∈ branch ↔ Extends s.up x root := by
  have hmirrored := mirrored_of_history h hnew
  refine ⟨fun p => ⟨hmirrored.nodup p, fun c => ?_⟩, hmirrored.blocksInBranch⟩
  rw [hmirrored.wf.mem_children, up_eq_some]

/-! ## Proposing a block twice -/

theorem new_of_checkLog {s₀ : BlockTree} {log : List Event}
    (h : checkLog insertsFresh s₀ log = true) :
    Inserted s₀ (fun s block _ => New s block) log := by
  intro before block appStateUpdates validatorSetUpdates hlog
  obtain ⟨hne, hnone⟩ := absent_of_checkLog h before block _ _ hlog
  refine ⟨hne, ?_⟩
  rw [Stored, hnone]
  exact Bool.false_ne_true

set_option maxRecDepth 100000 in
theorem checks_firstThreeViews_new : Replica.checks Sample.crypto (Sample.configuration 3)
    Sample.tree 20 (fun _ _ => true) Sample.firstThreeViews
    (fun log r => checkLog insertsFresh Sample.tree log &&
      BlockTree.childrenOf r.tree 0 == [Sample.block₀.hash]) = true := by
  decide +kernel

theorem children_mirror_justifies_sample : ∃ log branch,
    Sample.block₀.hash ∈ (Sample.tree.replay log).childrenOf 0 ∧
    Result.Eventually (fun fuel => (Sample.tree.replay log).blocksInBranch fuel 0) branch ∧
    branch.Nodup := by
  obtain ⟨log, r, history, htree, hlog⟩ :=
    exists_history_of_checks Sample.app_firstThreeViews checks_firstThreeViews_new
  rw [htree, Bool.and_eq_true, beq_iff_eq] at hlog
  obtain ⟨-, hbranch⟩ := children_mirror_justifies history (new_of_checkLog hlog.1)
  obtain ⟨branch, hends, hnodup, -⟩ := hbranch 0
  refine ⟨log, branch, ?_, hends, hnodup⟩
  have hchildren : (Sample.tree.replay log).childrenOf 0 = [Sample.block₀.hash] := hlog.2
  rw [hchildren]
  exact List.mem_singleton_self _

/-- The same block is proposed in two views. -/
def twoProposals : List Input :=
  [Sample.advance (.timeoutCertificate Sample.timeout), Sample.propose 1 Sample.block₀,
   Sample.advance (.phaseCertificate (Sample.certify 1 Sample.block₀.hash .generic)),
   Sample.propose 2 Sample.block₀]

set_option maxRecDepth 100000 in
theorem reaches_twoProposals : Replica.reaches Sample.crypto (Sample.configuration 3) Sample.tree 20
    twoProposals (fun s => s.childrenOf 0 == [Sample.block₀.hash, Sample.block₀.hash]) = true := by
  decide +kernel

/-- A block that is proposed again is listed twice. -/
theorem children_listed_twice : ∃ log,
    History Sample.crypto (Sample.configuration 3) (· = Sample.app) Sample.tree log ∧
    ¬((Sample.tree.replay log).childrenOf 0).Nodup := by
  have happs : ∀ input ∈ twoProposals, input.app = Sample.app := by
    simp [twoProposals, Sample.advance, Sample.propose, Sample.input]
  obtain ⟨log, hlog, hchildren⟩ :=
    @exists_history_of_reaches _ _ (· = Sample.app) _ _ _ _ _ rfl happs reaches_twoProposals
  rw [beq_iff_eq] at hchildren
  refine ⟨log, hlog, ?_⟩
  rw [hchildren]
  simp

end Protocol
end HotStuffRs
