import HotStuffRs.BlockTree.WriteBatch

namespace HotStuffRs
namespace BlockTree

open Kv

/-- The writes that give an empty store its initial values. -/
def initialBatch (appState : AppStateUpdates) (vss : ValidatorSetState) : WriteBatch :=
  WriteBatch.applyAppStateUpdates appState ++
  WriteBatch.setCommittedValidatorSet vss.committedValidatorSet ++
  WriteBatch.setPreviousValidatorSet vss.previousValidatorSet ++
  (match vss.updateHeight with
   | some height => WriteBatch.setValidatorSetUpdateBlockHeight height
   | none => []) ++
  WriteBatch.setValidatorSetUpdateDecided vss.updateDecided ++
  WriteBatch.setLockedPc PhaseCertificate.genesisPc ++
  WriteBatch.setHighestViewEntered ViewNumber.init ++
  WriteBatch.setHighestPc PhaseCertificate.genesisPc

/-- The tree that `initialize` leaves. -/
def initial (appState : AppStateUpdates) (vss : ValidatorSetState) : BlockTree :=
  Store.empty.write (initialBatch appState vss)

variable (s : BlockTree)

/-! ## The view of the App -/

/-- What an `AppBlockTreeView` is made of: the tree, and the pending app state
updates of the uncommitted ancestors, newest first. -/
structure AppBlockTreeView where
  blockTree : BlockTree
  pendingAncestorsAppStateUpdates : List (Option AppStateUpdates)

/-- The next item of the iterator over the heights of the ancestors from `block`
on, which skips the ancestors without a height, and where it goes on. -/
def nextHeight : Nat → Option CryptoHash → Result (Option (BlockHeight × Option CryptoHash))
  | _, none => return none
  | 0, some _ => throw .outOfFuel
  | fuel + 1, some block =>
    match s.kv.blockHeight block with
    | .ok (some height) => return some (height, s.kv.parent? block)
    | _ => nextHeight fuel (s.kv.parent? block)

/-- The ancestors from `block` on, newest first, while the heights zipped with
them are above `minHeight`.  The heights come from an iterator of their own, which
stands at `cursor`. -/
def ancestorsAbove (minHeight : Option BlockHeight) :
    Nat → Option CryptoHash → Option CryptoHash → Result (List CryptoHash)
  | _, none, _ => return []
  | 0, some _, _ => throw .outOfFuel
  | fuel + 1, some block, cursor => do
    match ← nextHeight s (fuel + 1) cursor with
    | none => return []
    | some (height, cursor) =>
      if minHeight.all (· < height) then
        let rest ← ancestorsAbove minHeight fuel (s.kv.parent? block) cursor
        return block :: rest
      else return []

def appView (fuel : Nat) (parent : Option CryptoHash) : Result AppBlockTreeView := do
  let minHeight ← s.kv.highestCommittedBlockHeight
  let ancestors ← ancestorsAbove s minHeight fuel parent parent
  return {
    blockTree := s
    pendingAncestorsAppStateUpdates :=
      ancestors.filterMap fun block => Result.ok? (s.kv.pendingAppStateUpdates block) }

/-! ## Insertion -/

/-- The writes of `insert`. -/
def insertBatch (block : Block) (appStateUpdates : Option AppStateUpdates)
    (validatorSetUpdates : Option ValidatorSetUpdates) : WriteBatch :=
  WriteBatch.setBlock block ++
  WriteBatch.setNewestBlock block.hash ++
  (match appStateUpdates with
   | some updates => WriteBatch.setPendingAppStateUpdates block.hash updates
   | none => []) ++
  (match validatorSetUpdates with
   | some updates => WriteBatch.setPendingValidatorSetUpdates block.hash updates
   | none => []) ++
  WriteBatch.setChildren block.justify.block
    ((Result.ok? (s.kv.children block.justify.block)).getD [] ++ [block.hash])

def insert (block : Block) (appStateUpdates : Option AppStateUpdates)
    (validatorSetUpdates : Option ValidatorSetUpdates) : BlockTree :=
  s.write (insertBatch s block appStateUpdates validatorSetUpdates)

/-! ## Commit -/

/-- Depth-first search with an explicit stack, whose top is the head of the list. -/
def depthFirst : Nat → List CryptoHash → Result (List CryptoHash)
  | _, [] => return []
  | 0, _ :: _ => throw .outOfFuel
  | fuel + 1, block :: stack => do
    let children := (Result.ok? (s.kv.children block)).getD []
    let branch ← depthFirst fuel (children.reverse ++ stack)
    return block :: branch

def blocksInBranch (fuel : Nat) (root : CryptoHash) : Result (List CryptoHash) :=
  depthFirst s fuel [root]

/-- The writes that delete one block of a branch. -/
def deleteBranchBlock (block : CryptoHash) : WriteBatch :=
  WriteBatch.deleteChildren block ++
  WriteBatch.deletePendingAppStateUpdates block ++
  WriteBatch.deleteBlockValidatorSetUpdates block ++
  match s.kv.blockDataLen block with
  | .ok (some dataLen) => WriteBatch.deleteBlock block dataLen
  | _ => []

def deleteBranch (fuel : Nat) (root : CryptoHash) : Result WriteBatch := do
  let branch ← blocksInBranch s fuel root
  return branch.flatMap (deleteBranchBlock s)

def deleteSiblings (fuel : Nat) (block : CryptoHash) : Result WriteBatch := do
  let justify ← s.kv.blockJustify block
  let children ← s.kv.children justify.block
  let deletions ← (children.filter (· ≠ block)).mapM (deleteBranch s fuel)
  return deletions.flatten ++ WriteBatch.setChildren justify.block [block]

/-- `block` and its ancestors down to the first that is not above `minHeight`,
newest first.  The walk panics at an ancestor without a height. -/
def uncommittedFrom (minHeight : Option BlockHeight) :
    Nat → Option CryptoHash → Result (List CryptoHash)
  | _, none => return []
  | 0, some _ => throw .outOfFuel
  | fuel + 1, some block => do
    let above ← match minHeight with
      | none => pure true
      | some h =>
        match s.kv.blockHeight block with
        | .ok (some height) => pure (decide (h < height))
        | _ => throw .panic
    if above then
      let rest ← uncommittedFrom minHeight fuel (s.kv.parent? block)
      return block :: rest
    else return []

/-- The writes by which `block` puts its pending validator set updates into
effect, and those updates.  The closure of the source marks as committed the
`target` of the whole commit, not `block`. -/
def commitValidatorSetUpdates (target block : CryptoHash) (height : BlockHeight) :
    Result (WriteBatch × Option ValidatorSetUpdates) := do
  match ← s.kv.validatorSetUpdatesStatus block with
  | .pending updates =>
    let previousValidatorSet ← s.kv.committedValidatorSet
    return (
      WriteBatch.setCommittedValidatorSet (previousValidatorSet.applyUpdates updates) ++
      WriteBatch.setPreviousValidatorSet previousValidatorSet ++
      WriteBatch.setValidatorSetUpdateBlockHeight height ++
      WriteBatch.setValidatorSetUpdateDecided false ++
      WriteBatch.setCommittedValidatorSetUpdates target,
      some updates)
  | _ => return ([], none)

/-- The writes by which `block` puts its pending app state updates into effect. -/
def commitAppStateUpdates (block : CryptoHash) : Result WriteBatch := do
  match ← s.kv.pendingAppStateUpdates block with
  | some updates =>
    return WriteBatch.applyAppStateUpdates updates ++ WriteBatch.deletePendingAppStateUpdates block
  | none => return []

/-- One round of the fold of `commit`: commit `block` on the way to `target`. -/
def commitBlock (fuel : Nat) (target block : CryptoHash) :
    Result (WriteBatch × CryptoHash × Option ValidatorSetUpdates) := do
  match ← s.kv.blockHeight block with
  | none => throw (.error (.blockExpectedButNotFound block))
  | some height =>
    let siblings ← deleteSiblings s fuel block
    let appState ← commitAppStateUpdates s block
    let (validatorSet, updates) ← commitValidatorSetUpdates s target block height
    return (
      WriteBatch.setBlockAtHeight height block ++ siblings ++ appState ++ validatorSet ++
        WriteBatch.setHighestCommittedBlock block,
      block, updates)

/-- The writes of `commit`, and the blocks it commits with their validator set
updates, oldest first.  Every round reads the tree as it is before the batch. -/
def commit (fuel : Nat) (target : CryptoHash) :
    Result (WriteBatch × List (CryptoHash × Option ValidatorSetUpdates)) := do
  let minHeight ← s.kv.highestCommittedBlockHeight
  let uncommitted ← uncommittedFrom s minHeight fuel (some target)
  let rounds ← uncommitted.reverse.mapM (commitBlock s fuel target)
  return (rounds.flatMap Prod.fst, rounds.map Prod.snd)

end BlockTree
end HotStuffRs
