import HotStuffRs.BlockTree.WellFormed

/-
What the rules of `invariants.rs` promise of a certificate, a block or a nudge that they
find safe.
-/

namespace HotStuffRs

/-- A correct block has the hash that is computed of it. -/
theorem Block.hashOf_of_isCorrect {cr : Crypto} {s : BlockTree} {block : Block}
    (h : block.isCorrect cr s = .ok true) :
    Block.hashOf cr block.height block.justify block.dataHash = .ok block.hash := by
  obtain ⟨hash, hhash, h⟩ := Result.bind_eq_ok.mp h
  split at h
  · rename_i heq
    rw [hhash, heq]
  · cases h

namespace BlockTree

variable {s : BlockTree} {pc : PhaseCertificate} {chainId : ChainID}

/-- Whether the locked block is `b`, its parent or its grandparent. -/
def NearLocked (s : BlockTree) (locked : PhaseCertificate) (b : CryptoHash) : Prop :=
  b = locked.block ∨ s.up b = some locked.block ∨
    ∃ parent, s.up b = some parent ∧ s.up parent = some locked.block

theorem extendsLockedPcBlock_eq_ok {locked : PhaseCertificate} (hlocked : s .lockedPc = some locked) :
    ∃ yes, s.extendsLockedPcBlock pc = .ok yes ∧ (yes = true ↔ NearLocked s locked pc.block) := by
  simp only [extendsLockedPcBlock, kv_lockedPc_eq_ok.mpr hlocked, Result.ok_bind,
    ok?_kv_blockJustify, Result.pure_eq]
  refine ⟨_, rfl, ?_⟩
  simp [NearLocked, up, or_assoc, Option.bind_eq_some_iff]

/-- What a certificate of the right chain and phase about a known block has to be safe. -/
theorem safePc_iff {locked : PhaseCertificate} (hlocked : s .lockedPc = some locked) :
    s.safePc pc chainId = .ok true ↔
      (pc.chainId = chainId ∨ pc = .genesisPc) ∧
      (s.kv.contains pc.block = true ∨ pc = .genesisPc) ∧
      (locked.view < pc.view ∨ NearLocked s locked pc.block) ∧
      (pc.phase ≠ .generic ↔
        ((s (.validatorSetUpdatesStatus pc.block)).getD .none).containsUpdates = true) := by
  obtain ⟨near, hextends, hnear⟩ : ∃ near, s.extendsLockedPcBlock pc = .ok near ∧
      (near = true ↔ NearLocked s locked pc.block) := extendsLockedPcBlock_eq_ok hlocked
  have hphase : ∀ updates : Bool, ((pc.phase.isPrepare || pc.phase.isPrecommit ||
      pc.phase.isCommit || pc.phase.isDecide) && updates || (pc.phase.isGeneric && !updates)) = true ↔
        (pc.phase ≠ .generic ↔ updates = true) := by
    intro updates
    cases pc.phase <;> cases updates <;> simp
  have hchain : (pc.chainId == chainId || pc.isGenesisPc) = true ↔
      pc.chainId = chainId ∨ pc = .genesisPc := by simp
  have hknown : (s.kv.contains pc.block || pc.isGenesisPc) = true ↔
      s.kv.contains pc.block = true ∨ pc = .genesisPc := by simp
  rw [← hchain, ← hknown, ← hnear, ← hphase]
  simp only [safePc, kv_lockedPc_eq_ok.mpr hlocked, hextends, Result.ok_bind,
    kv_validatorSetUpdatesStatus]
  generalize (pc.chainId == chainId || pc.isGenesisPc) = isChain
  generalize (s.kv.contains pc.block || pc.isGenesisPc) = isKnown
  cases isChain with
  | false => simp
  | true =>
    cases isKnown with
    | false => simp
    | true =>
      by_cases hview : locked.view < pc.view
      · simp [hview]
      · cases near <;> simp [hview]

/-- A safe certificate is of this chain, is about a known block, and is in the phased mode
if and only if that block has validator set updates. -/
theorem safePc_cases (h : s.safePc pc chainId = .ok true) :
    (pc.chainId = chainId ∨ pc = .genesisPc) ∧
    (s.kv.contains pc.block = true ∨ pc = .genesisPc) ∧
    (pc.phase ≠ .generic ↔
      ((s (.validatorSetUpdatesStatus pc.block)).getD .none).containsUpdates = true) := by
  have hlocked : ∃ locked, s .lockedPc = some locked := by
    unfold safePc at h
    split at h
    · cases h
    · split at h
      · cases h
      · obtain ⟨locked, hlocked, -⟩ := Result.bind_eq_ok.mp h
        exact ⟨locked, kv_lockedPc_eq_ok.mp hlocked⟩
  obtain ⟨locked, hlocked⟩ := hlocked
  obtain ⟨hchain, hknown, -, hphase⟩ := (safePc_iff hlocked).mp h
  exact ⟨hchain, hknown, hphase⟩

theorem safePc_of_safeBlock {block : Block} (h : s.safeBlock block chainId = .ok true) :
    s.safePc block.justify chainId = .ok true ∧ block.justify.isBlockJustify = true := by
  simp only [safeBlock, Result.bind_eq_ok] at h
  obtain ⟨safe, hsafe, h⟩ := h
  cases safe with
  | false => simp at h
  | true => exact ⟨hsafe, by simpa using h⟩

/-- The parent of a safe block is in the tree. -/
theorem WellFormed.parent_of_safeBlock (wf : s.WellFormed) {block : Block}
    (h : s.safeBlock block chainId = .ok true) :
    block.justify = .genesisPc ∨ s.Stored block.justify.block := by
  obtain ⟨-, hknown, -⟩ := safePc_cases (safePc_of_safeBlock h).1
  exact hknown.symm.imp_right wf.contains_iff.mp

theorem safeBlock_iff {block : Block} : s.safeBlock block chainId = .ok true ↔
    s.safePc block.justify chainId = .ok true ∧ block.justify.isBlockJustify = true := by
  refine ⟨safePc_of_safeBlock, fun h => ?_⟩
  simp [safeBlock, h.1, h.2]

theorem safePc_of_safeNudge {nudge : Nudge} {view : ViewNumber}
    (h : s.safeNudge nudge view chainId = .ok true) : s.safePc nudge.justify chainId = .ok true := by
  simp only [safeNudge, Result.bind_eq_ok] at h
  obtain ⟨safe, hsafe, h⟩ := h
  cases safe with
  | false => simp at h
  | true => exact hsafe

end BlockTree
end HotStuffRs
