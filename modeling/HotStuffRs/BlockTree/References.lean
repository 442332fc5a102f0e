import HotStuffRs.BlockTree.Initial
import HotStuffRs.BlockTree.Safe
import HotStuffRs.BlockTree.CommittedChain

/-
References into the tree.

A commit deletes the branches beside the blocks that it commits, and leaves the variables
alone that may name a block of such a branch.
-/

namespace HotStuffRs
namespace BlockTree

open Kv Forest

variable {s : BlockTree}

/-- The block is in the tree, or the genesis placeholder. -/
def Present (s : BlockTree) (b : CryptoHash) : Prop := b = 0 ∨ s.kv.contains b = true

/-- What the variables of the tree name is there. -/
structure NoDangling (s : BlockTree) : Prop where
  locked : ∀ pc, s .lockedPc = some pc → s.Present pc.block
  highest : ∀ pc, s .highestPc = some pc → s.Present pc.block
  committed : ∀ b, s .highestCommittedBlock = some b → s.Present b
  newest : ∀ b, s .newestBlock = some b → s.Present b
  named : ∀ height b, s (.blockAtHeight height) = some b → s.Present b
  children : ∀ p, ∀ c ∈ s.childrenOf p, s.Present c
  justify : ∀ b j, s (.blockJustify b) = some j → s.Present j.block

/-- The blocks that acting upon `justify` commits, newest first. -/
def ToCommit (s : BlockTree) (justify : PhaseCertificate) (us : List CryptoHash) : Prop :=
  ∃ target, s.blockToCommit justify = .ok (some target) ∧ Walk s s.committedHeight (some target) us

/-- What stays in a variable as `justify` is acted upon is in no branch beside the blocks that
this commits. -/
structure Spares (s : BlockTree) (justify : PhaseCertificate) : Prop where
  newest : ∀ us, s.ToCommit justify us → ∀ b, s .newestBlock = some b → ¬Commits.Prunes s us b
  highest : ∀ us, s.ToCommit justify us → ∀ pc, s .highestPc = some pc → justify.view ≤ pc.view →
    ¬Commits.Prunes s us pc.block
  named : ∀ us, s.ToCommit justify us → ∀ height b, s (.blockAtHeight height) = some b →
    (∀ c ∈ us, s (.blockHeight c) ≠ some height) → ¬Commits.Prunes s us b

theorem WellFormed.present_iff (wf : s.WellFormed) {b : CryptoHash} :
    s.Present b ↔ b = 0 ∨ s.Stored b := by
  rw [Present, wf.contains_iff]

theorem WellFormed.present_of_stored (wf : s.WellFormed) {b : CryptoHash} (h : s.Stored b) :
    s.Present b :=
  wf.present_iff.mpr (.inr h)

theorem WellFormed.present_justify (wf : s.WellFormed) {b : CryptoHash} {j : PhaseCertificate}
    (hj : s (.blockJustify b) = some j) : s.Present j.block := by
  rcases wf.parent b j hj with rfl | hstored
  · exact .inl rfl
  · exact wf.present_of_stored hstored

/-- The links between blocks do not dangle in a well-formed tree. -/
theorem WellFormed.noDangling (wf : s.WellFormed)
    (hlocked : ∀ pc, s .lockedPc = some pc → s.Present pc.block)
    (hhighest : ∀ pc, s .highestPc = some pc → s.Present pc.block)
    (hcommitted : ∀ b, s .highestCommittedBlock = some b → s.Present b)
    (hnewest : ∀ b, s .newestBlock = some b → s.Present b)
    (hnamed : ∀ height b, s (.blockAtHeight height) = some b → s.Present b) : s.NoDangling where
  locked := hlocked
  highest := hhighest
  committed := hcommitted
  newest := hnewest
  named := hnamed
  children p c hc := wf.present_of_stored (.of_up ((wf.mem_children p c).mp hc))
  justify _ _ := wf.present_justify

theorem present_of_safePc {pc : PhaseCertificate} {chainId : ChainID}
    (h : s.safePc pc chainId = .ok true) : s.Present pc.block := by
  obtain ⟨-, hknown, -⟩ := safePc_cases h
  rcases hknown with hcontains | rfl
  · exact .inr hcontains
  · exact .inl rfl

theorem noDangling_initial {appState : AppStateUpdates} {vss : ValidatorSetState} :
    (initial appState vss).NoDangling := by
  have hnone : ∀ v : Var, initial appState vss v = none → ∀ x, initial appState vss v ≠ some x := by
    intro v hv x hx
    rw [hv] at hx
    cases hx
  refine wellFormed_initial.noDangling (fun pc hpc => ?_) (fun pc hpc => ?_) ?_ ?_ ?_
  · rw [initial_lockedPc, Option.some.injEq] at hpc
    exact .inl (hpc ▸ rfl)
  · rw [initial_highestPc, Option.some.injEq] at hpc
    exact .inl (hpc ▸ rfl)
  · exact fun b hb =>
      (hnone _ (initial_eq_none (by simp [initialOps]) (by simp) (by simp)) b hb).elim
  · exact fun b hb =>
      (hnone _ (initial_eq_none (by simp [initialOps]) (by simp) (by simp)) b hb).elim
  · exact fun height b hb =>
      (hnone _ (initial_eq_none (by simp [initialOps]) (by simp) (by simp)) b hb).elim

/-! ## Insertions and notes -/

section insert

variable {block : Block} {appStateUpdates : Option AppStateUpdates}
  {validatorSetUpdates : Option ValidatorSetUpdates}

theorem WellFormed.insert_of_fresh (wf : s.WellFormed) {chainId : ChainID}
    (hfresh : s.Fresh block) (hsafe : s.safeBlock block chainId = .ok true) :
    (s.insert block appStateUpdates validatorSetUpdates).WellFormed := by
  exact wf.insert hfresh.hash (wf.parent_of_safeBlock hsafe) fun j hj => (hfresh.same j hj).1

theorem Present.insert (wf : s.WellFormed)
    (wf' : (s.insert block appStateUpdates validatorSetUpdates).WellFormed) {b : CryptoHash}
    (h : s.Present b) : (s.insert block appStateUpdates validatorSetUpdates).Present b := by
  rw [wf'.present_iff, stored_insert]
  exact (wf.present_iff.mp h).imp_right .inr

theorem NoDangling.insert (h : s.NoDangling) (wf : s.WellFormed)
    (wf' : (s.insert block appStateUpdates validatorSetUpdates).WellFormed) :
    (s.insert block appStateUpdates validatorSetUpdates).NoDangling := by
  have hkept : ∀ v : Var, v.block? = none → v ≠ .newestBlock →
      s.insert block appStateUpdates validatorSetUpdates v = s v :=
    fun _ => insert_of_block?_eq_none
  refine wf'.noDangling (fun pc hpc => ?_) (fun pc hpc => ?_) (fun b hb => ?_) (fun b hb => ?_)
    fun height b hb => ?_
  · rw [hkept _ rfl (by simp)] at hpc
    exact (h.locked pc hpc).insert wf wf'
  · rw [hkept _ rfl (by simp)] at hpc
    exact (h.highest pc hpc).insert wf wf'
  · rw [hkept _ rfl (by simp)] at hb
    exact (h.committed b hb).insert wf wf'
  · rw [newestBlock_insert, Option.some.injEq] at hb
    exact wf'.present_of_stored ((stored_insert b).mpr (.inl hb.symm))
  · rw [hkept _ rfl (by simp)] at hb
    exact (h.named height b hb).insert wf wf'

end insert

theorem Present.congr {s' : BlockTree} (wf : s.WellFormed) (wf' : s'.WellFormed)
    (hjustify : ∀ b, s' (.blockJustify b) = s (.blockJustify b)) {b : CryptoHash}
    (h : s.Present b) : s'.Present b := by
  rw [wf'.present_iff, Stored, hjustify]
  exact wf.present_iff.mp h

theorem NoDangling.congr {s' : BlockTree} (h : s.NoDangling) (wf : s.WellFormed)
    (wf' : s'.WellFormed) (hjustify : ∀ b, s' (.blockJustify b) = s (.blockJustify b))
    (hlocked : s' .lockedPc = s .lockedPc) (hhighest : s' .highestPc = s .highestPc)
    (hcommitted : s' .highestCommittedBlock = s .highestCommittedBlock)
    (hnewest : s' .newestBlock = s .newestBlock)
    (hnamed : ∀ height, s' (.blockAtHeight height) = s (.blockAtHeight height)) :
    s'.NoDangling :=
  wf'.noDangling (fun pc hpc => (h.locked pc (hlocked ▸ hpc)).congr wf wf' hjustify)
    (fun pc hpc => (h.highest pc (hhighest ▸ hpc)).congr wf wf' hjustify)
    (fun b hb => (h.committed b (hcommitted ▸ hb)).congr wf wf' hjustify)
    (fun b hb => (h.newest b (hnewest ▸ hb)).congr wf wf' hjustify)
    fun height b hb => (h.named height b (hnamed height ▸ hb)).congr wf wf' hjustify

/-! ## Acting upon a certificate -/

theorem extends_of_blockToCommit {justify : PhaseCertificate} {target : CryptoHash}
    (h : s.blockToCommit justify = .ok (some target)) : Extends s.up justify.block target := by
  rcases (blockToCommit_eq_ok h).2 with ⟨-, parentJustify, hparent, hup⟩ | ⟨-, rfl⟩
  · exact .of_parent (up_eq_some.mpr ⟨parentJustify, hparent, rfl⟩) (.parent hup)
  · exact .refl _

/-- What is locked after acting upon a certificate that commits `target` extends it. -/
theorem NextLock.extends {justify locked locked' : PhaseCertificate} {target : CryptoHash}
    (h : NextLock s justify locked locked') (htarget : s.blockToCommit justify = .ok (some target)) :
    Extends s.up locked'.block target := by
  have hcases := (blockToCommit_eq_ok htarget).2
  cases h with
  | genesis hj =>
    subst hj
    simp [blockToCommit] at htarget
  | generic _ hphase hparent =>
    rcases hcases with ⟨-, parentJustify, hparent', hup⟩ | ⟨hphase' | hphase', -⟩
    · obtain rfl := Option.some.inj (hparent.symm.trans hparent')
      exact .parent hup
    · rw [hphase] at hphase'
      cases hphase'
    · rw [hphase] at hphase'
      cases hphase'
  | prepare hphase =>
    rcases hcases with ⟨hphase', -⟩ | ⟨hphase' | hphase', -⟩ <;> rw [hphase] at hphase' <;>
      cases hphase'
  | precommit | other => exact extends_of_blockToCommit htarget
  | same hphase hblock =>
    rw [hblock]
    exact extends_of_blockToCommit htarget

/-- What extends the block to commit stays. -/
theorem Walk.not_prunes_of_extends (wf : s.WellFormed) {minHeight : Option BlockHeight}
    {target : CryptoHash} {us : List CryptoHash} (h : Walk s minHeight (some target) us)
    {x : CryptoHash} (hx : Extends s.up x target) : ¬Commits.Prunes s us x := by
  rintro ⟨b, hb, p, sibling, hp, hsibling, hne, hext⟩
  exact hne (wf.acyclic.eq_of_siblings hsibling hp hext (hx.trans (h.extends_of_mem rfl hb)))

theorem Commits.present_write (wf : s.WellFormed) {target : CryptoHash} {us : List CryptoHash}
    {wb : WriteBatch} (h : Commits s target us wb) {b : CryptoHash} :
    Present (s.write wb) b ↔ s.Present b ∧ ¬Prunes s us b := by
  rw [(h.wellFormed wf).present_iff, wf.present_iff, h.stored_write wf]
  constructor
  · rintro (rfl | ⟨hstored, hkept⟩)
    · exact ⟨.inl rfl, fun hpruned => wf.genesis hpruned.stored⟩
    · exact ⟨.inr hstored, hkept⟩
  · rintro ⟨rfl | hstored, hkept⟩
    · exact .inl rfl
    · exact .inr ⟨hstored, hkept⟩

section update

variable {justify : PhaseCertificate} {fuel : Nat} {wb : WriteBatch}
  {updates : Option ValidatorSetUpdates}

/-- The blocks to commit, as an update commits them. -/
theorem CommitsFor.toCommit_iff {us us' : List CryptoHash} (h : CommitsFor s justify us wb) :
    s.ToCommit justify us' ↔ us' = us ∧ ∃ target, s.blockToCommit justify = .ok (some target) := by
  rcases h with ⟨target, htarget, hcommits⟩ | ⟨hnone, -, -⟩
  · constructor
    · rintro ⟨target', htarget', hwalk⟩
      obtain rfl : target = target' := Option.some.inj (Except.ok.inj (htarget.symm.trans htarget'))
      exact ⟨hwalk.unique hcommits.walk, target, htarget⟩
    · rintro ⟨rfl, -⟩
      exact ⟨target, htarget, hcommits.walk⟩
  · constructor
    · rintro ⟨target, htarget, -⟩
      rw [hnone] at htarget
      cases htarget
    · rintro ⟨-, target, htarget⟩
      rw [hnone] at htarget
      cases htarget

/-- Acting upon a certificate takes away what is beside the blocks to commit. -/
theorem present_update (wf : s.WellFormed) (hupdate : s.updateBatch fuel justify = .ok (wb, updates))
    {b : CryptoHash} : Present (s.write wb) b ↔
      s.Present b ∧ ∀ us, s.ToCommit justify us → ¬Commits.Prunes s us b := by
  obtain ⟨us, commitBatch, hcommits, hwrite, -⟩ := commitsFor_of_updateBatch wf hupdate
  have hjustify : s.write wb (.blockJustify b) = s.write commitBatch (.blockJustify b) :=
    hwrite _ rfl (by simp)
  have hstored : Stored (s.write wb) b ↔ Stored (s.write commitBatch) b := by
    rw [Stored, Stored, hjustify]
  simp only [hcommits.toCommit_iff]
  rcases hcommits with ⟨target, htarget, hcommits⟩ | ⟨hnone, -, rfl⟩
  · rw [(wf.update hupdate).present_iff, hstored, ← (hcommits.wellFormed wf).present_iff,
      hcommits.present_write wf]
    refine and_congr_right fun _ => ⟨?_, fun h => h us ⟨rfl, target, htarget⟩⟩
    rintro hkept us' ⟨rfl, -⟩
    exact hkept
  · rw [(wf.update hupdate).present_iff, hstored, wf.present_iff]
    refine ⟨fun h => ⟨h, ?_⟩, And.left⟩
    rintro us' ⟨-, target, htarget⟩
    rw [hnone] at htarget
    cases htarget

/-- The lock never dangles by an update: it is on a block that extends the one to commit. -/
theorem NextLock.present {locked locked' : PhaseCertificate} (wf : s.WellFormed)
    (h : NextLock s justify locked locked') (hlocked : s.Present locked.block)
    (hjustify : s.Present justify.block)
    (hupdate : s.updateBatch fuel justify = .ok (wb, updates)) :
    Present (s.write wb) locked'.block := by
  refine (present_update wf hupdate).mpr ⟨?_, fun us hus => ?_⟩
  · cases h with
    | genesis | prepare | same => exact hlocked
    | generic _ _ hparent => exact wf.present_justify hparent
    | precommit | other => exact hjustify
  · obtain ⟨target, htarget, hwalk⟩ := hus
    exact hwalk.not_prunes_of_extends wf (h.extends htarget)

/-- The highest committed block is the target of the last commit. -/
theorem NoDangling.committed_update (h : s.NoDangling) (wf : s.WellFormed)
    (hupdate : s.updateBatch fuel justify = .ok (wb, updates)) {b : CryptoHash}
    (hb : s.write wb .highestCommittedBlock = some b) : Present (s.write wb) b := by
  obtain ⟨us, commitBatch, hcommits, hwrite, -⟩ := commitsFor_of_updateBatch wf hupdate
  rw [hwrite _ rfl (by simp)] at hb
  refine (present_update wf hupdate).mpr ?_
  simp only [hcommits.toCommit_iff]
  rcases hcommits with ⟨target, htarget, hcommits⟩ | ⟨hnone, -, rfl⟩
  · by_cases hne : us = []
    · subst hne
      rw [hcommits.eq_nil] at hb
      refine ⟨h.committed b hb, ?_⟩
      rintro us' ⟨rfl, -⟩ ⟨c, hc, -⟩
      cases hc
    · rw [hcommits.highestCommittedBlock_write hne, Option.some.injEq] at hb
      subst hb
      refine ⟨wf.present_of_stored (stored_of_blockToCommit wf htarget), ?_⟩
      rintro us' ⟨rfl, -⟩
      exact hcommits.not_prunes wf (.refl _)
  · refine ⟨h.committed b hb, ?_⟩
    rintro us' ⟨-, target, htarget⟩
    rw [hnone] at htarget
    cases htarget

/-- A block that stays under its height is spared, and the others are committed now. -/
theorem NoDangling.named_update (h : s.NoDangling) (wf : s.WellFormed)
    (hupdate : s.updateBatch fuel justify = .ok (wb, updates)) (hspares : s.Spares justify)
    {height : BlockHeight} {b : CryptoHash} (hb : s.write wb (.blockAtHeight height) = some b) :
    Present (s.write wb) b := by
  obtain ⟨us, commitBatch, hcommits, hwrite, -⟩ := commitsFor_of_updateBatch wf hupdate
  rw [hwrite _ rfl (by simp)] at hb
  refine (present_update wf hupdate).mpr ?_
  rcases hcommits with ⟨target, htarget, hcommits⟩ | ⟨hnone, -, rfl⟩
  · have hiff : ∀ us', s.ToCommit justify us' → us' = us :=
      fun us' hus' => ((CommitsFor.toCommit_iff (.inl ⟨target, htarget, hcommits⟩)).mp hus').1
    rcases Store.cases_of_write s hb with hset | ⟨hunwritten, hb⟩
    · obtain ⟨c, hc, -, hop⟩ := hcommits.op_blockAtHeight hset rfl
      obtain rfl : b = c := by simpa using hop
      refine ⟨wf.present_of_stored (hcommits.walk.stored_of_mem wf (fun x hx => ?_) hc), ?_⟩
      · obtain rfl := Option.some.inj hx
        exact stored_of_blockToCommit wf htarget
      · intro us' hus'
        obtain rfl := hiff us' hus'
        exact hcommits.not_prunes wf (hcommits.walk.extends_of_mem rfl hc)
    · refine ⟨h.named height b hb, fun us' hus' => ?_⟩
      refine hspares.named us' hus' height b hb fun c hc hheight => ?_
      obtain rfl := hiff us' hus'
      exact hunwritten _ ((hcommits.mem _).mpr ⟨c, hc, .blockAtHeight hheight⟩) rfl
  · refine ⟨h.named height b hb, ?_⟩
    rintro us' ⟨target, htarget, -⟩
    rw [hnone] at htarget
    cases htarget

/-- Acting upon a certificate about a known block leaves nothing dangling, if it spares what
the variables name. -/
theorem NoDangling.update (h : s.NoDangling) (wf : s.WellFormed)
    (hlocked : (s .lockedPc).isSome = true) (hjustify : s.Present justify.block)
    (hspares : s.Spares justify) (hupdate : s.updateBatch fuel justify = .ok (wb, updates)) :
    NoDangling (s.write wb) := by
  obtain ⟨locked, hlocked⟩ := Option.isSome_iff_exists.mp hlocked
  obtain ⟨locked', hlocked', hnext⟩ := lockedPc_update hlocked hupdate
  obtain ⟨highest, hhighest, hhighest'⟩ := highestPc_update hupdate
  refine (wf.update hupdate).noDangling (fun pc hpc => ?_) (fun pc hpc => ?_)
    (fun b hb => h.committed_update wf hupdate hb) (fun b hb => ?_)
    fun height b hb => h.named_update wf hupdate hspares hb
  · obtain rfl := Option.some.inj (hlocked'.symm.trans hpc)
    exact hnext.present wf (h.locked locked hlocked) hjustify hupdate
  · rw [hhighest', Option.some.injEq] at hpc
    subst hpc
    refine (present_update wf hupdate).mpr ?_
    split
    · refine ⟨hjustify, fun us hus => ?_⟩
      obtain ⟨target, htarget, hwalk⟩ := hus
      exact hwalk.not_prunes_of_extends wf (extends_of_blockToCommit htarget)
    · rename_i hle
      exact ⟨h.highest highest hhighest,
        fun us hus => hspares.highest us hus highest hhighest (not_lt.mp hle)⟩
  · rw [write_update_of_isProgress hupdate rfl (by simp) (by simp)] at hb
    exact (present_update wf hupdate).mpr
      ⟨h.newest b hb, fun us hus => hspares.newest us hus b hb⟩

/-- If nothing dangles afterwards, then what the variables name was spared. -/
theorem NoDangling.spares (wf : s.WellFormed)
    (hupdate : s.updateBatch fuel justify = .ok (wb, updates)) (h : NoDangling (s.write wb)) :
    s.Spares justify := by
  have hkept : ∀ us b, s.ToCommit justify us → Present (s.write wb) b → ¬Commits.Prunes s us b :=
    fun us b hus hb => ((present_update wf hupdate).mp hb).2 us hus
  refine ⟨fun us hus b hb => ?_, fun us hus pc hpc hle => ?_, fun us hus height b hb hnone => ?_⟩
  · refine hkept us b hus (h.newest b ?_)
    rw [write_update_of_isProgress hupdate rfl (by simp) (by simp)]
    exact hb
  · refine hkept us pc.block hus (h.highest pc ?_)
    obtain ⟨highest, hhighest, hhighest'⟩ := highestPc_update hupdate
    obtain rfl := Option.some.inj (hpc.symm.trans hhighest)
    rw [hhighest', if_neg (not_lt.mpr hle)]
  · refine hkept us b hus (h.named height b ?_)
    obtain ⟨us', commitBatch, hcommits, hwrite, -⟩ := commitsFor_of_updateBatch wf hupdate
    obtain ⟨rfl, -⟩ := hcommits.toCommit_iff.mp hus
    rw [hwrite _ rfl (by simp)]
    rcases hcommits with ⟨target, -, hcommits⟩ | ⟨-, -, rfl⟩
    · rw [hcommits.blockAtHeight_kept hnone]
      exact hb
    · exact hb

end update

end BlockTree
end HotStuffRs
