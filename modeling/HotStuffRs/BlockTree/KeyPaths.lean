import HotStuffRs.BlockTree.Bytes
import HotStuffRs.BlockTree.WriteBatch

/-
The key paths as the source puts them together.

The setters and the getters build the key of each variable separately, from the constants below.
Both ways give the one key that the other modules use.
-/

namespace HotStuffRs

open Kv Codec

namespace Variables

def blocks : List Byte := [0]
def blockAtHeight : List Byte := [1]
def blockToChildren : List Byte := [2]
def committedAppState : List Byte := [3]
def pendingAppStateUpdates : List Byte := [4]
def committedValidatorSet : List Byte := [5]
def validatorSetUpdatesStatus : List Byte := [6]
def lockedPc : List Byte := [7]
def highestViewEntered : List Byte := [8]
def highestPc : List Byte := [9]
def highestCommittedBlock : List Byte := [10]
def newestBlock : List Byte := [11]
def highestTc : List Byte := [12]
def previousValidatorSet : List Byte := [13]
def validatorSetUpdateBlockHeight : List Byte := [14]
def validatorSetUpdateDecided : List Byte := [15]
def highestViewPhaseVoted : List Byte := [16]

def blockHeight : List Byte := [0]
def blockJustify : List Byte := [1]
def blockDataHash : List Byte := [2]
def blockDataLen : List Byte := [3]
def blockData : List Byte := [4]

def concat (a b : List Byte) : List Byte := a ++ b

end Variables

/-- `try_to_vec().unwrap()`, which is used for numbers only. -/
def toVec {α : Type} [Borsh α] (x : α) : List Byte := (Borsh.encode x).getD []

/-- `to_le_bytes`. -/
def U64.toLeBytes (x : U64) : List Byte := leBytes 8 x.val

namespace Var

open Variables (concat)

/-- The key that the setters and deleters of `BlockTreeWriteBatch` build for a variable. -/
def writeKey : Var → List Byte
  | blockHeight b => concat (concat Variables.blocks (hashBytes b)) Variables.blockHeight
  | blockJustify b => concat (concat Variables.blocks (hashBytes b)) Variables.blockJustify
  | blockDataHash b => concat (concat Variables.blocks (hashBytes b)) Variables.blockDataHash
  | blockDataLen b => concat (concat Variables.blocks (hashBytes b)) Variables.blockDataLen
  | blockDatum b i =>
    concat (concat (concat Variables.blocks (hashBytes b)) Variables.blockData) (toVec i)
  | blockAtHeight h => concat Variables.blockAtHeight (toVec h)
  | blockToChildren b => concat Variables.blockToChildren (hashBytes b)
  | committedAppState k => concat Variables.committedAppState k
  | pendingAppStateUpdates b => concat Variables.pendingAppStateUpdates (hashBytes b)
  | committedValidatorSet => Variables.committedValidatorSet
  | validatorSetUpdatesStatus b => concat Variables.validatorSetUpdatesStatus (hashBytes b)
  | lockedPc => Variables.lockedPc
  | highestViewEntered => Variables.highestViewEntered
  | highestPc => Variables.highestPc
  | highestCommittedBlock => Variables.highestCommittedBlock
  | newestBlock => Variables.newestBlock
  | highestTc => Variables.highestTc
  | previousValidatorSet => Variables.previousValidatorSet
  | validatorSetUpdateBlockHeight => Variables.validatorSetUpdateBlockHeight
  | validatorSetUpdateDecided => Variables.validatorSetUpdateDecided
  | highestViewPhaseVoted => Variables.highestViewPhaseVoted

/-- The key that the getters of `KVGet` build for a variable. -/
def readKey : Var → List Byte
  | blockHeight b => concat (concat Variables.blocks (hashBytes b)) Variables.blockHeight
  | blockJustify b => concat Variables.blocks (concat (hashBytes b) Variables.blockJustify)
  | blockDataHash b => concat Variables.blocks (concat (hashBytes b) Variables.blockDataHash)
  | blockDataLen b => concat Variables.blocks (concat (hashBytes b) Variables.blockDataLen)
  | blockDatum b i =>
    concat (concat Variables.blocks (concat (hashBytes b) Variables.blockData)) (toVec i)
  | blockAtHeight h => concat Variables.blockAtHeight h.toLeBytes
  | blockToChildren b => concat Variables.blockToChildren (hashBytes b)
  | committedAppState k => concat Variables.committedAppState k
  | pendingAppStateUpdates b => concat Variables.pendingAppStateUpdates (hashBytes b)
  | committedValidatorSet => Variables.committedValidatorSet
  | validatorSetUpdatesStatus b => concat Variables.validatorSetUpdatesStatus (hashBytes b)
  | lockedPc => Variables.lockedPc
  | highestViewEntered => Variables.highestViewEntered
  | highestPc => Variables.highestPc
  | highestCommittedBlock => Variables.highestCommittedBlock
  | newestBlock => Variables.newestBlock
  | highestTc => Variables.highestTc
  | previousValidatorSet => Variables.previousValidatorSet
  | validatorSetUpdateBlockHeight => Variables.validatorSetUpdateBlockHeight
  | validatorSetUpdateDecided => Variables.validatorSetUpdateDecided
  | highestViewPhaseVoted => Variables.highestViewPhaseVoted

theorem writeKey_eq_key (v : Var) : v.writeKey = v.key := by
  cases v with
  | blockDatum b i =>
    show [0] ++ hashBytes b ++ [4] ++ leBytes 4 i.val = 0 :: (hashBytes b ++ 4 :: leBytes 4 i.val)
    rw [List.append_assoc, List.append_assoc]
    rfl
  | _ => rfl

theorem readKey_eq_key (v : Var) : v.readKey = v.key := by
  cases v with
  | blockDatum b i =>
    show [0] ++ (hashBytes b ++ [4]) ++ leBytes 4 i.val = 0 :: (hashBytes b ++ 4 :: leBytes 4 i.val)
    rw [List.append_assoc, List.append_assoc]
    rfl
  | _ => rfl

end Var

/-! ## The methods of `BlockTreeWriteBatch` -/

/-- A call of a setter or deleter. -/
inductive Setter
  | setBlock (block : Block)
  | deleteBlock (block : CryptoHash) (dataLen : DataLen)
  | setBlockAtHeight (height : BlockHeight) (block : CryptoHash)
  | setChildren (block : CryptoHash) (children : ChildrenList)
  | deleteChildren (block : CryptoHash)
  | setCommittedAppState (key value : List Byte)
  | deleteCommittedAppState (key : List Byte)
  | setPendingAppStateUpdates (block : CryptoHash) (updates : AppStateUpdates)
  | applyAppStateUpdates (updates : AppStateUpdates)
  | deletePendingAppStateUpdates (block : CryptoHash)
  | setCommittedValidatorSet (vs : ValidatorSet)
  | setPendingValidatorSetUpdates (block : CryptoHash) (updates : ValidatorSetUpdates)
  | setCommittedValidatorSetUpdates (block : CryptoHash)
  | deleteBlockValidatorSetUpdates (block : CryptoHash)
  | setLockedPc (pc : PhaseCertificate)
  | setHighestViewEntered (view : ViewNumber)
  | setHighestPc (pc : PhaseCertificate)
  | setHighestCommittedBlock (block : CryptoHash)
  | setNewestBlock (block : CryptoHash)
  | setHighestTc (tc : TimeoutCertificate)
  | setPreviousValidatorSet (vs : ValidatorSet)
  | setValidatorSetUpdateBlockHeight (height : BlockHeight)
  | setValidatorSetUpdateDecided (decided : Bool)
  | setHighestViewPhaseVoted (view : ViewNumber)

namespace Setter

/-- The operations that a call queues. -/
def ops : Setter → WriteBatch
  | setBlock block => WriteBatch.setBlock block
  | deleteBlock block dataLen => WriteBatch.deleteBlock block dataLen
  | setBlockAtHeight height block => WriteBatch.setBlockAtHeight height block
  | setChildren block children => WriteBatch.setChildren block children
  | deleteChildren block => WriteBatch.deleteChildren block
  | setCommittedAppState key value => [.set (.committedAppState key) value]
  | deleteCommittedAppState key => [.delete (.committedAppState key)]
  | setPendingAppStateUpdates block updates => WriteBatch.setPendingAppStateUpdates block updates
  | applyAppStateUpdates updates => WriteBatch.applyAppStateUpdates updates
  | deletePendingAppStateUpdates block => WriteBatch.deletePendingAppStateUpdates block
  | setCommittedValidatorSet vs => WriteBatch.setCommittedValidatorSet vs
  | setPendingValidatorSetUpdates block updates =>
    WriteBatch.setPendingValidatorSetUpdates block updates
  | setCommittedValidatorSetUpdates block => WriteBatch.setCommittedValidatorSetUpdates block
  | deleteBlockValidatorSetUpdates block => WriteBatch.deleteBlockValidatorSetUpdates block
  | setLockedPc pc => WriteBatch.setLockedPc pc
  | setHighestViewEntered view => WriteBatch.setHighestViewEntered view
  | setHighestPc pc => WriteBatch.setHighestPc pc
  | setHighestCommittedBlock block => WriteBatch.setHighestCommittedBlock block
  | setNewestBlock block => WriteBatch.setNewestBlock block
  | setHighestTc tc => WriteBatch.setHighestTc tc
  | setPreviousValidatorSet vs => WriteBatch.setPreviousValidatorSet vs
  | setValidatorSetUpdateBlockHeight height => WriteBatch.setValidatorSetUpdateBlockHeight height
  | setValidatorSetUpdateDecided decided => WriteBatch.setValidatorSetUpdateDecided decided
  | setHighestViewPhaseVoted view => WriteBatch.setHighestViewPhaseVoted view

/-- The variables of a block, with those of its first `n` datums. -/
def blockVars (block : CryptoHash) (n : Nat) : List Var :=
  [.blockHeight block, .blockJustify block, .blockDataHash block, .blockDataLen block] ++
  (List.range n).map fun i => .blockDatum block (Fin.ofNat _ i)

/-- The variables that a call is about, with their arguments. -/
def vars : Setter → List Var
  | setBlock block => blockVars block.hash block.data.length
  | deleteBlock block dataLen => blockVars block dataLen.val
  | setBlockAtHeight height _ => [.blockAtHeight height]
  | setChildren block _ | deleteChildren block => [.blockToChildren block]
  | setCommittedAppState key _ | deleteCommittedAppState key => [.committedAppState key]
  | setPendingAppStateUpdates block _ | deletePendingAppStateUpdates block =>
    [.pendingAppStateUpdates block]
  | applyAppStateUpdates updates =>
    (updates.inserts.keys ++ updates.deletes.toList).map Var.committedAppState
  | setCommittedValidatorSet _ => [.committedValidatorSet]
  | setPendingValidatorSetUpdates block _ | setCommittedValidatorSetUpdates block
  | deleteBlockValidatorSetUpdates block => [.validatorSetUpdatesStatus block]
  | setLockedPc _ => [.lockedPc]
  | setHighestViewEntered _ => [.highestViewEntered]
  | setHighestPc _ => [.highestPc]
  | setHighestCommittedBlock _ => [.highestCommittedBlock]
  | setNewestBlock _ => [.newestBlock]
  | setHighestTc _ => [.highestTc]
  | setPreviousValidatorSet _ => [.previousValidatorSet]
  | setValidatorSetUpdateBlockHeight _ => [.validatorSetUpdateBlockHeight]
  | setValidatorSetUpdateDecided _ => [.validatorSetUpdateDecided]
  | setHighestViewPhaseVoted _ => [.highestViewPhaseVoted]

/-- A call queues operations on the variables that it is about and on no others. -/
theorem map_key_ops (m : Setter) : m.ops.map Op.key = m.vars := by
  cases m with
  | setBlock block =>
    show (WriteBatch.setBlock block).map Op.key = blockVars block.hash block.data.length
    rw [WriteBatch.setBlock, blockVars, List.map_append, List.range_eq_range',
      ← List.zipIdx_map_snd, List.map_map, List.map_map]
    rfl
  | deleteBlock block dataLen =>
    show (WriteBatch.deleteBlock block dataLen).map Op.key = blockVars block dataLen.val
    rw [WriteBatch.deleteBlock, blockVars, List.map_append, List.map_map]
    rfl
  | applyAppStateUpdates updates =>
    show (WriteBatch.applyAppStateUpdates updates).map Op.key =
      (updates.inserts.keys ++ updates.deletes.toList).map Var.committedAppState
    rw [WriteBatch.applyAppStateUpdates, List.map_append, List.map_append, List.map_map,
      List.map_map, ← Std.ExtTreeMap.map_fst_toList_eq_keys, List.map_map]
    rfl
  | _ => rfl

end Setter

/-! ## Reading after writing -/

namespace KVStore

/-- An operation as a setter or deleter queues it, if the value serializes. -/
def writeOp : Op Var.Val → Option (Op fun _ : List Byte => List Byte)
  | .set v x => (v.encode x).map fun bs => .set v.writeKey bs
  | .delete v => some (.delete v.writeKey)

/-- The batch of bytes of a call. -/
def call (m : Setter) : Option (Batch fun _ : List Byte => List Byte) := m.ops.mapM writeOp

/-- The getters over the bytes of a store. -/
def getters (st : KVStore) : KVGet where
  get v :=
    match st v.readKey with
    | none => .ok none
    | some bs =>
      match v.decode bs with
      | some x => .ok (some x)
      | none => .error (.error (.kvGetError (.deserializeValueError v.errorKey)))

theorem writeOp_eq_encodeOp : writeOp = encodeOp := by
  funext o
  cases o with
  | set v x => rw [writeOp, encodeOp, Var.writeKey_eq_key]
  | delete v => rw [writeOp, encodeOp, Var.writeKey_eq_key]

theorem call_eq_encodeBatch (m : Setter) : call m = encodeBatch m.ops := by
  rw [call, encodeBatch, writeOp_eq_encodeOp]

theorem getters_eq_kv (st : KVStore) : getters st = kv st := by
  unfold getters kv
  apply congrArg KVGet.mk
  funext v
  rw [Var.readKey_eq_key]
  rfl

/-- Different variables, or one variable with different arguments, have different keys; the
getters read the keys that the setters write; and a call leaves what the getters find for all
variables that it is not about as it was. -/
theorem key_paths_apart :
    (∀ v v' : Var, v ≠ v' → v.writeKey ≠ v'.writeKey) ∧
    (∀ v : Var, v.readKey = v.writeKey) ∧
    ∀ (st : KVStore) (m : Setter) (wb : Batch fun _ : List Byte => List Byte),
      call m = some wb →
      (∀ v, v ∉ m.vars → (getters (st.write wb)).get v = (getters st).get v) ∧
      ∀ v r, Batch.result? v m.ops = some r → (getters (st.write wb)).get v = .ok r := by
  refine ⟨?_, ?_, ?_⟩
  · intro v v' hne heq
    rw [Var.writeKey_eq_key, Var.writeKey_eq_key] at heq
    exact hne (Var.key_inj heq)
  · intro v
    rw [Var.readKey_eq_key, Var.writeKey_eq_key]
  · intro st m wb hcall
    rw [call_eq_encodeBatch] at hcall
    rw [getters_eq_kv, getters_eq_kv]
    constructor
    · intro v hv
      have hnone : Batch.result? v m.ops = none := by
        rw [Batch.result?_eq_none]
        intro o ho heq
        rw [← Setter.map_key_ops] at hv
        exact hv (List.mem_map.mpr ⟨o, ho, heq⟩)
      rw [get_write hcall, hnone]
      rfl
    · intro v r hr
      rw [get_write hcall, hr]
      rfl

/-- App state is kept apart from the locked certificate, whatever its key. -/
theorem key_paths_apart_app_state :
    (getters (Store.empty.write [.set [3, 7] [1]])).get .lockedPc =
      (getters Store.empty).get .lockedPc :=
  (key_paths_apart.2.2 .empty (.setCommittedAppState [7] [1]) _ rfl).1 .lockedPc (by decide)

end KVStore

end HotStuffRs
