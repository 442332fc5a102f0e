import HotStuffRs.BlockTree.CommittedUpdates
import HotStuffRs.BlockTree.Initial
import HotStuffRs.BlockTree.Safe

/-
Immediate validator set updates.

A block with validator set updates is to be committed before anything is built on it.  An
insertion below a block whose updates are still pending breaks this for that one block, and
the update that follows the insertion repairs it, if it commits the block.
-/

namespace HotStuffRs
namespace BlockTree

open Forest Kv

/-- The validator set updates of `b` wait for its commit. -/
def IsPending (s : BlockTree) (b : CryptoHash) : Prop :=
  ∃ updates, s (.validatorSetUpdatesStatus b) = some (.pending updates)

/-- The block is at most as high as the highest committed one. -/
def AtMostCommitted (s : BlockTree) (b : CryptoHash) : Prop :=
  ∃ height committed, s (.blockHeight b) = some height ∧ s.committedHeight = some committed ∧
    height ≤ committed

/-- All blocks whose updates are marked as committed are, and no block has pending updates and
a child, but for the block `except`. -/
structure ImmediateExcept (s : BlockTree) (except : Option CryptoHash) : Prop where
  wf : s.WellFormed
  validatorSet : (s .committedValidatorSet).isSome = true
  highest : ∀ b, s .highestCommittedBlock = some b → s.Stored b
  stored : ∀ b, (s (.validatorSetUpdatesStatus b)).isSome = true → s.Stored b
  committed : ∀ b, s (.validatorSetUpdatesStatus b) = some .committed → s.AtMostCommitted b
  pending : ∀ c p, s.up c = some p → s.IsPending p → except = some p

abbrev Immediate (s : BlockTree) : Prop := s.ImmediateExcept none

variable {s s' : BlockTree} {except : Option CryptoHash}

theorem Immediate.not_isPending (h : s.Immediate) {c p : CryptoHash} (hc : s.up c = some p) :
    ¬s.IsPending p := by
  intro hp
  cases h.pending c p hc hp

/-- The updates of a block with a child are committed. -/
theorem Immediate.atMostCommitted (h : s.Immediate) {c p : CryptoHash} (hc : s.up c = some p)
    {status : ValidatorSetUpdatesStatus} (hstatus : s.kv.validatorSetUpdatesStatus p = .ok status)
    (hupdates : status.containsUpdates = true) : status = .committed ∧ s.AtMostCommitted p := by
  cases status with
  | none => cases hupdates
  | pending updates => exact absurd ⟨updates, pending_iff.mp hstatus⟩ (h.not_isPending hc)
  | committed =>
    refine ⟨rfl, h.committed p ?_⟩
    rw [kv_validatorSetUpdatesStatus] at hstatus
    cases hp : s (.validatorSetUpdatesStatus p) with
    | none => simp [hp] at hstatus
    | some status => simpa [hp] using hstatus

theorem ImmediateExcept.congr (h : s.ImmediateExcept except)
    (hblock : ∀ v x, v.block? = some x → s' v = s v)
    (hhighest : s' .highestCommittedBlock = s .highestCommittedBlock)
    (hvs : (s' .committedValidatorSet).isSome = true) : s'.ImmediateExcept except := by
  have hup : s'.up = s.up := by
    funext x
    rw [up, hblock _ x rfl]
    rfl
  have hstatus : ∀ x, s' (.validatorSetUpdatesStatus x) = s (.validatorSetUpdatesStatus x) :=
    fun x => hblock _ x rfl
  have hcommittedHeight : s'.committedHeight = s.committedHeight := by
    rw [committedHeight, committedHeight, hhighest]
    congr 1
    funext x
    exact hblock _ x rfl
  have hstored : ∀ x, s.Stored x → s'.Stored x := by
    intro x hx
    rwa [Stored, ← hblock (.blockJustify x) x rfl] at hx
  refine ⟨h.wf.congr hblock, hvs, ?_, ?_, ?_, ?_⟩
  · intro b hb
    rw [hhighest] at hb
    exact hstored b (h.highest b hb)
  · intro b hb
    rw [hstatus] at hb
    exact hstored b (h.stored b hb)
  · intro b hb
    rw [hstatus] at hb
    obtain ⟨height, committed, hheight, hcommitted, hle⟩ := h.committed b hb
    refine ⟨height, committed, ?_, hcommittedHeight.trans hcommitted, hle⟩
    rw [hblock _ b rfl]
    exact hheight
  · intro c p hc hp
    obtain ⟨updates, hp⟩ := hp
    rw [hup] at hc
    rw [hstatus] at hp
    exact h.pending c p hc ⟨updates, hp⟩

theorem immediate_initial {appState : AppStateUpdates} {vss : ValidatorSetState} :
    (initial appState vss).Immediate := by
  have hstatus : ∀ b, initial appState vss (.validatorSetUpdatesStatus b) = none :=
    fun b => initial_of_block? rfl
  refine ⟨wellFormed_initial, ?_, ?_, ?_, ?_, ?_⟩
  · have hvs : initial appState vss .committedValidatorSet = some vss.committedValidatorSet :=
      initial_of_mem_initialOps (o := .set .committedValidatorSet vss.committedValidatorSet)
        (by simp [initialOps])
    rw [hvs]
    rfl
  · intro b hb
    have hnone : initial appState vss .highestCommittedBlock = none :=
      initial_eq_none (by simp [initialOps]) (by simp) (by simp)
    rw [hnone] at hb
    cases hb
  · intro b hb
    simp [hstatus] at hb
  · intro b hb
    rw [hstatus] at hb
    cases hb
  · intro c p hc
    exact absurd (Stored.of_up hc) (not_stored_initial c)

/-! ## Insertion -/

section

variable {block : Block} {appStateUpdates : Option AppStateUpdates}
variable {validatorSetUpdates : Option ValidatorSetUpdates}

/-- An insertion writes no updates status but that of the block. -/
theorem status_of_mem_insertBatch {o : Op Var.Val} {b : CryptoHash}
    (ho : o ∈ s.insertBatch block appStateUpdates validatorSetUpdates)
    (hkey : o.key = .validatorSetUpdatesStatus b) :
    ∃ updates, validatorSetUpdates = some updates ∧
      o = .set (.validatorSetUpdatesStatus block.hash) (.pending updates) := by
  cases mem_insertBatch.mp ho with
  | block ho =>
    have hfield := (key_of_mem_setBlock ho).1
    rw [hkey] at hfield
    cases hfield
  | newestBlock | appState | children => cases hkey
  | validatorSet h => exact ⟨_, h, rfl⟩

theorem status_insert_of_ne {b : CryptoHash} (hb : b ≠ block.hash) :
    s.insert block appStateUpdates validatorSetUpdates (.validatorSetUpdatesStatus b) =
      s (.validatorSetUpdatesStatus b) := by
  refine Store.write_of_notMem s fun o ho hkey => ?_
  obtain ⟨updates, -, rfl⟩ := status_of_mem_insertBatch ho hkey.symm
  exact hb (by simpa using hkey)

/-- The inserted block has the updates that come with it, or what it had. -/
theorem status_insert_self :
    s.insert block appStateUpdates validatorSetUpdates (.validatorSetUpdatesStatus block.hash) =
      match validatorSetUpdates with
      | some updates => some (.pending updates)
      | none => s (.validatorSetUpdatesStatus block.hash) := by
  cases validatorSetUpdates with
  | some updates =>
    have hmem : Op.set (.validatorSetUpdatesStatus block.hash) (.pending updates) ∈
        s.insertBatch block appStateUpdates (some updates) :=
      mem_insertBatch.mpr (.validatorSet rfl)
    refine Store.write_of_unique s hmem fun o ho hkey => ?_
    obtain ⟨updates', h, rfl⟩ := status_of_mem_insertBatch ho hkey
    cases h
    rfl
  | none =>
    refine Store.write_of_notMem s fun o ho hkey => ?_
    obtain ⟨updates, h, -⟩ := status_of_mem_insertBatch ho hkey.symm
    cases h

theorem committedHeight_insert (wf : s.WellFormed) (hfresh : s.Fresh block)
    (hhighest : ∀ b, s .highestCommittedBlock = some b → s.Stored b) :
    (s.insert block appStateUpdates validatorSetUpdates).committedHeight = s.committedHeight := by
  have hkept : s.insert block appStateUpdates validatorSetUpdates .highestCommittedBlock =
      s .highestCommittedBlock := insert_of_block?_eq_none rfl (by decide)
  rw [committedHeight, committedHeight, hkept]
  cases hb : s .highestCommittedBlock with
  | none => rfl
  | some b =>
    obtain ⟨height, hheight⟩ := wf.exists_height (hhighest b hb)
    have hheight' : s.insert block appStateUpdates validatorSetUpdates (.blockHeight b) =
        some height := height_insert_of_fresh wf hfresh hheight
    exact hheight'.trans hheight.symm

/-- An insertion breaks immediacy for the parent at most. -/
theorem Immediate.insert (h : s.Immediate) (hfresh : s.Fresh block)
    (hparent : block.justify = .genesisPc ∨ s.Stored block.justify.block)
    (hchild : validatorSetUpdates.isSome = true → s.childrenOf block.hash = [])
    (hexcept : s.IsPending block.justify.block → except = some block.justify.block) :
    (s.insert block appStateUpdates validatorSetUpdates).ImmediateExcept except := by
  have wf : (s.insert block appStateUpdates validatorSetUpdates).WellFormed :=
    h.wf.insert hfresh.hash hparent fun j hj => (hfresh.same j hj).1
  refine ⟨wf, ?_, ?_, ?_, ?_, ?_⟩
  · rw [insert_of_block?_eq_none rfl (by decide)]
    exact h.validatorSet
  · intro b hb
    rw [insert_of_block?_eq_none rfl (by decide)] at hb
    exact (stored_insert b).mpr (.inr (h.highest b hb))
  · intro b hb
    rw [stored_insert]
    by_cases hhash : b = block.hash
    · exact .inl hhash
    · rw [status_insert_of_ne hhash] at hb
      exact .inr (h.stored b hb)
  · intro b hb
    have hold : s (.validatorSetUpdatesStatus b) = some .committed := by
      by_cases hhash : b = block.hash
      · subst hhash
        rw [status_insert_self] at hb
        cases validatorSetUpdates with
        | some updates => cases hb
        | none => exact hb
      · rwa [status_insert_of_ne hhash] at hb
    obtain ⟨height, committed, hheight, hcommitted, hle⟩ := h.committed b hold
    exact ⟨height, committed, height_insert_of_fresh h.wf hfresh hheight,
      (committedHeight_insert h.wf hfresh h.highest).trans hcommitted, hle⟩
  · intro c p hc hp
    obtain ⟨updates, hp⟩ := hp
    have hup := hc
    rw [up_insert] at hup
    split at hup
    · -- The inserted block is not its own parent.
      rename_i hhash
      obtain rfl := Option.some.inj hup
      have hne : block.justify.block ≠ block.hash := by
        intro heq
        rw [hhash, heq] at hc
        exact wf.acyclic.not_extends_parent hc (.refl _)
      rw [status_insert_of_ne hne] at hp
      exact hexcept ⟨updates, hp⟩
    · by_cases hhash : p = block.hash
      · subst hhash
        rw [status_insert_self] at hp
        cases validatorSetUpdates with
        | some updates' =>
          have hmem := (h.wf.mem_children _ _).mpr hup
          rw [hchild rfl] at hmem
          cases hmem
        | none => exact absurd ⟨updates, hp⟩ (h.not_isPending hup)
      · rw [status_insert_of_ne hhash] at hp
        exact absurd ⟨updates, hp⟩ (h.not_isPending hup)

end

/-! ## Commit -/

section

variable {target : CryptoHash} {us : List CryptoHash} {wb : WriteBatch}

/-- The blocks of a walk but the first have children in it. -/
theorem Walk.exists_child {minHeight : Option BlockHeight} (h : Walk s minHeight (some target) us)
    {x : CryptoHash} (hx : x ∈ us) (hne : x ≠ target) : ∃ c, s.up c = some x := by
  have hextends := h.extends_of_mem rfl hx
  rcases Extends.iff_child.mp hextends with heq | ⟨c, -, hc⟩
  · exact absurd heq hne
  · exact ⟨c, hc⟩

/-- The committed height after a commit is that of its target, which is above the one before. -/
theorem Commits.committedHeight_write (wf : s.WellFormed) (h : Commits s target us wb)
    (hne : us ≠ []) {height : BlockHeight} (hheight : s (.blockHeight target) = some height) :
    committedHeight (s.write wb) = some height ∧
      ∀ committed ∈ s.committedHeight, committed < height := by
  have hmem : target ∈ us := by
    obtain ⟨rest, rfl⟩ := h.walk.eq_cons hne
    exact List.mem_cons_self
  have hkept : s.write wb (.blockHeight target) = some height := by
    rw [h.field_write rfl rfl (h.not_prunes wf (.refl target))]
    exact hheight
  constructor
  · rw [committedHeight, h.highestCommittedBlock_write hne]
    exact hkept
  · intro committed hcommitted
    obtain ⟨height', hheight', hlt⟩ := h.walk.above_of_mem hmem hcommitted
    obtain rfl := Option.some.inj (hheight.symm.trans hheight')
    exact hlt

/-- If no block of the walk but the target has pending updates, the target has none
afterwards, and the others keep what they have unless they are pruned. -/
theorem Commits.status_write (wf : s.WellFormed) (h : Commits s target us wb)
    (hvs : (s .committedValidatorSet).isSome = true) (hstored : s.Stored target) (hmem : target ∈ us)
    (honly : ∀ x ∈ us, x ≠ target → ¬s.IsPending x) {x : CryptoHash} (hx : ¬Commits.Prunes s us x) :
    (x = target ∧ ∀ updates, s.write wb (.validatorSetUpdatesStatus x) ≠ some (.pending updates)) ∨
      (x ≠ target ∧ s.write wb (.validatorSetUpdatesStatus x) = s (.validatorSetUpdatesStatus x)) := by
  by_cases hxt : x = target
  · subst hxt
    refine .inl ⟨rfl, fun updates hwrite => ?_⟩
    by_cases hpending : s.IsPending x
    · obtain ⟨updates', hpending⟩ := hpending
      obtain ⟨height, hheight⟩ := wf.exists_height hstored
      obtain ⟨vs, hvs⟩ := Option.isSome_iff_exists.mp hvs
      have hset := h.validatorSetOps_write wf hmem hpending
        (fun y hy hne updates hy' => honly y hy hne ⟨updates, hy'⟩) hheight hvs
        (o := .set (.validatorSetUpdatesStatus x) .committed) (by simp [validatorSetOps])
      cases hset.symm.trans hwrite
    · have hnone : ∀ b ∈ us, ¬s.IsPending b := by
        intro b hb hpending'
        by_cases hbx : b = x
        · exact hpending (hbx ▸ hpending')
        · exact honly b hb hbx hpending'
      have hkept := h.status_write_of_not_prunes hx
        fun b hb updates' hpending' => (hnone b hb ⟨updates', hpending'⟩).elim
      exact hpending ⟨updates, hkept.symm.trans hwrite⟩
  · exact .inr ⟨hxt, h.status_write_of_not_prunes hx fun _ _ _ _ => hxt⟩

/-- A commit keeps immediacy, and restores it for its target. -/
theorem ImmediateExcept.commit (h : s.ImmediateExcept except) (hcommits : Commits s target us wb)
    (hstored : s.Stored target) (hexcept : ∀ p ∈ except, p = target ∧ us ≠ [])
    (hvs : (s.write wb .committedValidatorSet).isSome = true) : Immediate (s.write wb) := by
  by_cases hne : us = []
  · subst hne
    obtain rfl := hcommits.eq_nil
    have hnone : except = none := Option.eq_none_iff_forall_not_mem.mpr fun p hp =>
      (hexcept p hp).2 rfl
    rw [hnone] at h
    exact h
  have hmem : target ∈ us := by
    obtain ⟨rest, rfl⟩ := hcommits.walk.eq_cons hne
    exact List.mem_cons_self
  have honly : ∀ x ∈ us, x ≠ target → ¬s.IsPending x := by
    intro x hx hxt hpending
    obtain ⟨c, hc⟩ := hcommits.walk.exists_child hx hxt
    exact hxt (hexcept x (h.pending c x hc hpending)).1
  obtain ⟨height, hheight⟩ := h.wf.exists_height hstored
  obtain ⟨hcommitted, habove⟩ := hcommits.committedHeight_write h.wf hne hheight
  have hkept : ∀ {x status}, s.write wb (.validatorSetUpdatesStatus x) = some status →
      ¬Commits.Prunes s us x := fun hx => hcommits.not_prunes_of_write h.wf rfl rfl hx
  have hstatus : ∀ x, ¬Commits.Prunes s us x → _ :=
    fun x => hcommits.status_write h.wf h.validatorSet hstored hmem honly
  refine ⟨hcommits.wellFormed h.wf, hvs, ?_, ?_, ?_, ?_⟩
  · intro b hb
    have htarget : s.write wb .highestCommittedBlock = some target :=
      hcommits.highestCommittedBlock_write hne
    obtain rfl := Option.some.inj (htarget.symm.trans hb)
    exact (hcommits.stored_write h.wf).mpr ⟨hstored, hcommits.not_prunes h.wf (.refl _)⟩
  · intro b hb
    obtain ⟨status, hb'⟩ := Option.isSome_iff_exists.mp hb
    refine (hcommits.stored_write h.wf).mpr ⟨?_, hkept hb'⟩
    rcases hstatus b (hkept hb') with ⟨rfl, -⟩ | ⟨-, hsame⟩
    · exact hstored
    · rw [hsame] at hb
      exact h.stored b hb
  · intro b hb
    have hheights : s.write wb (.blockHeight b) = s (.blockHeight b) :=
      hcommits.field_write rfl rfl (hkept hb)
    rcases hstatus b (hkept hb) with ⟨rfl, -⟩ | ⟨-, hsame⟩
    · exact ⟨height, height, hheights.trans hheight, hcommitted, le_rfl⟩
    · -- The committed height has grown.
      rw [hsame] at hb
      obtain ⟨height', committed, hheight', hcommitted', hle⟩ := h.committed b hb
      exact ⟨height', height, hheights.trans hheight', hcommitted,
        hle.trans (habove committed hcommitted').le⟩
  · intro c p hc hp
    obtain ⟨updates, hp⟩ := hp
    rcases hstatus p (hkept hp) with ⟨-, hnot⟩ | ⟨hpt, hsame⟩
    · exact absurd hp (hnot updates)
    · rw [hsame] at hp
      have hup := ((hcommits.up_write h.wf).mp hc).1
      exact absurd (hexcept p (h.pending c p hup ⟨updates, hp⟩)).1 hpt

end

/-! ## Update -/

variable {justify : PhaseCertificate} {fuel : Nat} {wb : WriteBatch}
variable {updates : Option ValidatorSetUpdates}

/-- Acting upon a certificate keeps immediacy, and restores it for the block that the
certificate commits. -/
theorem ImmediateExcept.update (h : s.ImmediateExcept except)
    (hexcept : ∀ p ∈ except, s.blockToCommit justify = .ok (some p) ∧ ¬s.AtMostCommitted p)
    (hupdate : s.updateBatch fuel justify = .ok (wb, updates)) : Immediate (s.write wb) := by
  obtain ⟨us, commitBatch, hcommits, hkept, -⟩ := commitsFor_of_updateBatch h.wf hupdate
  have hvs : (s.write wb .committedValidatorSet).isSome = true := by
    obtain ⟨-, -, hwrite⟩ := updates_updateBatch hupdate
    rw [hwrite]
    cases updates with
    | none => exact h.validatorSet
    | some updates =>
      rw [validatorSetAfter, Option.isSome_map]
      exact h.validatorSet
  have hvs' : (s.write commitBatch .committedValidatorSet).isSome = true := by
    rw [← hkept .committedValidatorSet rfl (by decide)]
    exact hvs
  have himmediate : Immediate (s.write commitBatch) := by
    rcases hcommits with ⟨target, htarget, hcommits⟩ | ⟨htarget, rfl, rfl⟩
    · refine h.commit hcommits (stored_of_blockToCommit h.wf htarget) (fun p hp => ?_) hvs'
      obtain ⟨hp, habove⟩ := hexcept p hp
      obtain rfl : target = p := by simpa [htarget] using hp
      refine ⟨rfl, ?_⟩
      rintro rfl
      -- The walk ends at once only at a block that is not above the committed height.
      cases hcommits.walk with
      | stop hmin hheight hle => exact habove ⟨_, _, hheight, hmin, hle⟩
    · have hnone : except = none := Option.eq_none_iff_forall_not_mem.mpr fun p hp => by
        have hp := (hexcept p hp).1
        rw [htarget] at hp
        cases hp
      rw [hnone] at h
      exact h
  refine himmediate.congr (fun v x hv => hkept v (Var.isProgress_of_block? hv) ?_)
    (hkept _ rfl (by decide)) hvs
  rintro rfl
  cases hv

/-- A Decide PC commits its block, unless that is at most as high as the committed ones. -/
theorem blockToCommit_of_decide (hphase : justify.phase = .decide) {height : BlockHeight}
    (hheight : s (.blockHeight justify.block) = some height)
    (habove : ¬s.AtMostCommitted justify.block) :
    s.blockToCommit justify = .ok (some justify.block) := by
  have hgenesis : justify.isGenesisPc = false := by
    cases hgenesis : justify.isGenesisPc with
    | false => rfl
    | true =>
      have heq : justify = .genesisPc := by simpa [PhaseCertificate.isGenesisPc] using hgenesis
      rw [heq] at hphase
      cases hphase
  have hall : s.committedHeight.all (· < height) = true := by
    cases hcommitted : s.committedHeight with
    | none => rfl
    | some committed =>
      have hlt : committed < height := by
        by_contra hle
        exact habove ⟨height, committed, hheight, hcommitted, not_lt.mp hle⟩
      simpa using hlt
  simp [blockToCommit, hgenesis, hphase, notCommittedYet, hheight, hall]

/-- A block is inserted, and its justify acted upon.  If the parent has pending updates, the
justify is a Decide PC that commits it. -/
theorem Immediate.updateInserted (h : s.Immediate) {block : Block}
    {appStateUpdates : Option AppStateUpdates} {validatorSetUpdates : Option ValidatorSetUpdates}
    {chainId : ChainID} (hfresh : s.Fresh block) (hsafe : s.safeBlock block chainId = .ok true)
    (hchild : validatorSetUpdates.isSome = true → s.childrenOf block.hash = [])
    (habove : s.IsPending block.justify.block → ¬s.AtMostCommitted block.justify.block)
    (hupdate : (s.insert block appStateUpdates validatorSetUpdates).updateBatch fuel block.justify =
      .ok (wb, updates)) :
    Immediate ((s.insert block appStateUpdates validatorSetUpdates).write wb) := by
  obtain ⟨hpc, hjustify⟩ := safePc_of_safeBlock hsafe
  obtain ⟨-, -, hphase⟩ := safePc_cases hpc
  have hparent := h.wf.parent_of_safeBlock hsafe
  by_cases hpending : s.IsPending block.justify.block
  · have hinserted : (s.insert block appStateUpdates validatorSetUpdates).ImmediateExcept
        (some block.justify.block) := h.insert hfresh hparent hchild fun _ => rfl
    refine hinserted.update (fun p hp => ?_) hupdate
    obtain rfl := Option.some.inj hp
    obtain ⟨status, hstatus⟩ := hpending
    have hdecide : block.justify.phase = .decide := by
      have hphased := hphase.mpr (by rw [hstatus]; rfl)
      cases hjphase : block.justify.phase <;>
        simp_all [PhaseCertificate.isBlockJustify, Phase.isGeneric, Phase.isDecide]
    obtain ⟨height, hheight⟩ := h.wf.exists_height (h.stored _ (by rw [hstatus]; rfl))
    have hheight' : s.insert block appStateUpdates validatorSetUpdates
        (.blockHeight block.justify.block) = some height :=
      height_insert_of_fresh h.wf hfresh hheight
    have habove' : ¬(s.insert block appStateUpdates validatorSetUpdates).AtMostCommitted
        block.justify.block := by
      rintro ⟨height', committed, hat, hcommitted, hle⟩
      obtain rfl := Option.some.inj (hheight'.symm.trans hat)
      rw [committedHeight_insert h.wf hfresh h.highest] at hcommitted
      exact habove ⟨status, hstatus⟩ ⟨height, committed, hheight, hcommitted, hle⟩
    exact ⟨blockToCommit_of_decide hdecide hheight' habove', habove'⟩
  · have hinserted : (s.insert block appStateUpdates validatorSetUpdates).Immediate :=
      h.insert hfresh hparent hchild fun hp => absurd hp hpending
    exact hinserted.update nofun hupdate

end BlockTree
end HotStuffRs
