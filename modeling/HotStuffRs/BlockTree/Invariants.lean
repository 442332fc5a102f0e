import HotStuffRs.BlockTree.Singleton

namespace HotStuffRs

open Kv

/-! ## Correctness of certificates and blocks -/

namespace PhaseCertificate

/-- The validator set whose quorum must have signed `pc`, as the match of the
source on the height of the block, the last update height, the phase and the
update status chooses it; `none` where the certificate is refused outright. -/
def signingSet (s : BlockTree) (pc : PhaseCertificate) : Result (Option ValidatorSet) := do
  let blockHeight ← s.kv.blockHeight pc.block
  let vss ← s.kv.validatorSetState
  match blockHeight, vss.updateHeight with
  | none, _ | some _, none => return some vss.committedValidatorSet
  | some height, some updateHeight =>
    if height < updateHeight then return some vss.previousValidatorSet
    else if height > updateHeight then return some vss.committedValidatorSet
    else match pc.phase with
    | .decide =>
      match ← s.kv.validatorSetUpdatesStatus pc.block with
      | .committed => return some vss.committedValidatorSet
      | .pending updates =>
        let committedValidatorSet ← s.kv.committedValidatorSet
        return some (committedValidatorSet.applyUpdates updates)
      | .none => return none
    | .prepare | .precommit | .commit =>
      match ← s.kv.validatorSetUpdatesStatus pc.block with
      | .committed => return some vss.previousValidatorSet
      | .pending _ => return some vss.committedValidatorSet
      | .none => return none
    | .generic => return none

def isCorrect (cr : Crypto) (s : BlockTree) (pc : PhaseCertificate) : Result Bool := do
  if pc.isGenesisPc then return true
  else
    match ← pc.signingSet s with
    | some vs => pc.isCorrectlySigned cr vs
    | none => return false

end PhaseCertificate

namespace TimeoutCertificate

def isCorrect (cr : Crypto) (s : BlockTree) (tc : TimeoutCertificate) : Result Bool := do
  let vss ← s.kv.validatorSetState
  if vss.updateDecided then tc.isCorrectlySigned cr vss.committedValidatorSet
  else if ← tc.isCorrectlySigned cr vss.committedValidatorSet then return true
  else tc.isCorrectlySigned cr vss.previousValidatorSet

end TimeoutCertificate

def Block.isCorrect (cr : Crypto) (s : BlockTree) (block : Block) : Result Bool := do
  let hash ← Block.hashOf cr block.height block.justify block.dataHash
  if block.hash = hash then block.justify.isCorrect cr s else return false

/-! ## The rules of `invariants.rs` -/

structure Nudge where
  chainId : ChainID
  view : ViewNumber
  justify : PhaseCertificate
  deriving DecidableEq

namespace BlockTree

variable (s : BlockTree)

/-- Whether the locked block is `pc.block`, its parent or its grandparent. -/
def extendsLockedPcBlock (pc : PhaseCertificate) : Result Bool := do
  let lockedPc ← s.kv.lockedPc
  let parent := (Result.ok? (s.kv.blockJustify pc.block)).map PhaseCertificate.block
  let grandparent := parent.bind fun b =>
    (Result.ok? (s.kv.blockJustify b)).map PhaseCertificate.block
  return pc.block == lockedPc.block || parent == some lockedPc.block ||
    grandparent == some lockedPc.block

def safePc (pc : PhaseCertificate) (chainId : ChainID) : Result Bool := do
  if !(pc.chainId == chainId || pc.isGenesisPc) then return false
  else if !(s.kv.contains pc.block || pc.isGenesisPc) then return false
  else
    let lockedPc ← s.kv.lockedPc
    let satisfiesLock ←
      if pc.view > lockedPc.view then pure true else extendsLockedPcBlock s pc
    if !satisfiesLock then return false
    else
      let status ← s.kv.validatorSetUpdatesStatus pc.block
      return ((pc.phase.isPrepare || pc.phase.isPrecommit || pc.phase.isCommit ||
          pc.phase.isDecide) && status.containsUpdates) ||
        (pc.phase.isGeneric && !status.containsUpdates)

def safeBlock (block : Block) (chainId : ChainID) : Result Bool := do
  if ← safePc s block.justify chainId then return block.justify.isBlockJustify
  else return false

def safeNudge (nudge : Nudge) (currentView : ViewNumber) (chainId : ChainID) : Result Bool := do
  if !(← safePc s nudge.justify chainId) then return false
  else if !(nudge.justify.isNudgeJustify && nudge.chainId == chainId) then return false
  else if nudge.justify.phase.isCommit then return true
  else
    let previousView ← U64.sub currentView 1
    return nudge.justify.view == previousView

/-- The certificate to lock on after seeing `justify`, if it is not locked already. -/
def pcToLock (justify : PhaseCertificate) : Result (Option PhaseCertificate) := do
  if justify.isGenesisPc then return none
  else
    let lockedPc ← s.kv.lockedPc
    let pcToLock ← match justify.phase with
      | .generic => do
        let parentJustify ← s.kv.blockJustify justify.block
        pure (some parentJustify)
      | .prepare => pure none
      | .precommit => pure (some justify)
      | .commit | .decide =>
        pure (if lockedPc.block ≠ justify.block then some justify else none)
    return if pcToLock = some lockedPc then none else pcToLock

/-- Whether `block` is above the highest committed block. -/
def notCommittedYet (block : CryptoHash) : Result Bool := do
  match ← s.kv.blockHeight block with
  | none => throw (.error (.blockExpectedButNotFound block))
  | some height =>
    let highestCommittedBlockHeight ← s.kv.highestCommittedBlockHeight
    return highestCommittedBlockHeight.all (· < height)

/-- The block to commit, with its uncommitted ancestors, after seeing `justify`. -/
def blockToCommit (justify : PhaseCertificate) : Result (Option CryptoHash) := do
  if justify.isGenesisPc then return none
  else match justify.phase with
  | .generic =>
    let parentJustify ← s.kv.blockJustify justify.block
    if parentJustify.isGenesisPc then return none
    else
      let grandparentJustify ← s.kv.blockJustify parentJustify.block
      if grandparentJustify.isGenesisPc then return none
      else
        let afterParent ← U64.add parentJustify.view 1
        let commitRuleSatisfied ←
          if justify.view = afterParent then do
            let afterGrandparent ← U64.add grandparentJustify.view 1
            pure (decide (parentJustify.view = afterGrandparent))
          else pure false
        let notCommittedYet ← notCommittedYet s grandparentJustify.block
        return if commitRuleSatisfied && notCommittedYet then some grandparentJustify.block
          else none
  | .prepare | .precommit => return none
  | .commit | .decide =>
    let notCommittedYet ← notCommittedYet s justify.block
    return if notCommittedYet then some justify.block else none

/-- The block that the leader of `currentView` should propose again, if any. -/
def reproposeBlock (currentView : ViewNumber) : Result (Option CryptoHash) := do
  let highestPc ← s.kv.highestPc
  match highestPc.phase with
  | .prepare | .precommit =>
    let next ← U64.add highestPc.view 1
    return if currentView ≠ next then some highestPc.block else none
  | _ => return none

/-! ## Update -/

/-- The writes of `update`, and the validator set updates to hand to the network. -/
def updateBatch (fuel : Nat) (justify : PhaseCertificate) :
    Result (WriteBatch × Option ValidatorSetUpdates) := do
  let highestPc ← s.kv.highestPc
  let pcToLock ← pcToLock s justify
  let blockToCommit ← blockToCommit s justify
  let (commitBatch, committedBlocks) ← match blockToCommit with
    | some block => commit s fuel block
    | none => pure ([], [])
  return (
    (if justify.view > highestPc.view then WriteBatch.setHighestPc justify else []) ++
    (match pcToLock with
     | some pc => WriteBatch.setLockedPc pc
     | none => []) ++
    commitBatch ++
    (if justify.phase.isDecide then WriteBatch.setValidatorSetUpdateDecided true else []),
    committedBlocks.reverse.findSome? Prod.snd)

def update (fuel : Nat) (justify : PhaseCertificate) :
    Result (BlockTree × Option ValidatorSetUpdates) := do
  let (wb, validatorSetUpdates) ← updateBatch s fuel justify
  return (s.write wb, validatorSetUpdates)

end BlockTree
end HotStuffRs
