import HotStuffRs.BlockTree.Pluggables

namespace HotStuffRs
namespace WriteBatch

open Kv

/-! Each method is given as the operations that it queues. -/

def setBlock (block : Block) : WriteBatch :=
  [.set (.blockHeight block.hash) block.height,
   .set (.blockJustify block.hash) block.justify,
   .set (.blockDataHash block.hash) block.dataHash,
   .set (.blockDataLen block.hash) (Data.len block.data)] ++
  block.data.zipIdx.map fun (datum, i) => .set (.blockDatum block.hash (Fin.ofNat _ i)) datum

/-- The operations on the fields of a block other than its data have keys of their own. -/
theorem eq_of_key_setBlock {block : Block} {o o' : Op Var.Val} (ho : o ∈ (setBlock block).take 4)
    (ho' : o' ∈ setBlock block) (hk : o'.key = o.key) : o' = o := by
  simp only [setBlock, List.cons_append, List.nil_append, List.take_succ_cons, List.take_zero,
    List.mem_cons, List.not_mem_nil, or_false] at ho
  simp only [setBlock, List.cons_append, List.nil_append, List.mem_cons, List.mem_map] at ho'
  rcases ho with rfl | rfl | rfl | rfl <;>
    rcases ho' with rfl | rfl | rfl | rfl | ⟨⟨d, j⟩, -, rfl⟩ <;> first | rfl | cases hk

def deleteBlock (block : CryptoHash) (dataLen : DataLen) : WriteBatch :=
  [.delete (.blockHeight block),
   .delete (.blockJustify block),
   .delete (.blockDataHash block),
   .delete (.blockDataLen block)] ++
  (List.range dataLen.val).map fun i => .delete (.blockDatum block (Fin.ofNat _ i))

def setBlockAtHeight (height : BlockHeight) (block : CryptoHash) : WriteBatch :=
  [.set (.blockAtHeight height) block]

def setChildren (block : CryptoHash) (children : ChildrenList) : WriteBatch :=
  [.set (.blockToChildren block) children]

def deleteChildren (block : CryptoHash) : WriteBatch := [.delete (.blockToChildren block)]

def setPendingAppStateUpdates (block : CryptoHash) (updates : AppStateUpdates) : WriteBatch :=
  [.set (.pendingAppStateUpdates block) updates]

def applyAppStateUpdates (updates : AppStateUpdates) : WriteBatch :=
  updates.inserts.toList.map (fun (key, value) => .set (.committedAppState key) value) ++
  updates.deletes.toList.map fun key => .delete (.committedAppState key)

def deletePendingAppStateUpdates (block : CryptoHash) : WriteBatch :=
  [.delete (.pendingAppStateUpdates block)]

def setCommittedValidatorSet (vs : ValidatorSet) : WriteBatch := [.set .committedValidatorSet vs]

def setPendingValidatorSetUpdates (block : CryptoHash) (updates : ValidatorSetUpdates) :
    WriteBatch :=
  [.set (.validatorSetUpdatesStatus block) (.pending updates)]

def setCommittedValidatorSetUpdates (block : CryptoHash) : WriteBatch :=
  [.set (.validatorSetUpdatesStatus block) .committed]

def deleteBlockValidatorSetUpdates (block : CryptoHash) : WriteBatch :=
  [.delete (.validatorSetUpdatesStatus block)]

def setLockedPc (pc : PhaseCertificate) : WriteBatch := [.set .lockedPc pc]

def setHighestViewEntered (view : ViewNumber) : WriteBatch := [.set .highestViewEntered view]

def setHighestPc (pc : PhaseCertificate) : WriteBatch := [.set .highestPc pc]

def setHighestCommittedBlock (block : CryptoHash) : WriteBatch :=
  [.set .highestCommittedBlock block]

def setNewestBlock (block : CryptoHash) : WriteBatch := [.set .newestBlock block]

def setHighestTc (tc : TimeoutCertificate) : WriteBatch := [.set .highestTc tc]

def setPreviousValidatorSet (vs : ValidatorSet) : WriteBatch := [.set .previousValidatorSet vs]

def setValidatorSetUpdateBlockHeight (height : BlockHeight) : WriteBatch :=
  [.set .validatorSetUpdateBlockHeight height]

def setValidatorSetUpdateDecided (decided : Bool) : WriteBatch :=
  [.set .validatorSetUpdateDecided decided]

def setHighestViewPhaseVoted (view : ViewNumber) : WriteBatch :=
  [.set .highestViewPhaseVoted view]

/-- Whether a batch inserts a block. -/
def Inserts (wb : WriteBatch) : Prop := ∃ block, Op.set .newestBlock block ∈ wb

end WriteBatch
end HotStuffRs
