import HotStuffRs.Kv.Batch
import HotStuffRs.Types.Certificates

namespace HotStuffRs

open Codec

/-- The variables of the block tree.  A block takes one variable for each field
and one for each datum. -/
inductive Var
  | blockHeight (block : CryptoHash)
  | blockJustify (block : CryptoHash)
  | blockDataHash (block : CryptoHash)
  | blockDataLen (block : CryptoHash)
  | blockDatum (block : CryptoHash) (index : U32)
  | blockAtHeight (height : BlockHeight)
  | blockToChildren (block : CryptoHash)
  | committedAppState (key : List Byte)
  | pendingAppStateUpdates (block : CryptoHash)
  | committedValidatorSet
  | validatorSetUpdatesStatus (block : CryptoHash)
  | lockedPc
  | highestViewEntered
  | highestPc
  | highestCommittedBlock
  | newestBlock
  | highestTc
  | previousValidatorSet
  | validatorSetUpdateBlockHeight
  | validatorSetUpdateDecided
  | highestViewPhaseVoted
  deriving DecidableEq

namespace Var

@[reducible] def Val : Var → Type
  | blockHeight _ => BlockHeight
  | blockJustify _ => PhaseCertificate
  | blockDataHash _ => CryptoHash
  | blockDataLen _ => DataLen
  | blockDatum _ _ => Datum
  | blockAtHeight _ => CryptoHash
  | blockToChildren _ => ChildrenList
  | committedAppState _ => List Byte
  | pendingAppStateUpdates _ => AppStateUpdates
  | committedValidatorSet => ValidatorSet
  | validatorSetUpdatesStatus _ => ValidatorSetUpdatesStatus
  | lockedPc => PhaseCertificate
  | highestViewEntered => ViewNumber
  | highestPc => PhaseCertificate
  | highestCommittedBlock => CryptoHash
  | newestBlock => CryptoHash
  | highestTc => TimeoutCertificate
  | previousValidatorSet => ValidatorSet
  | validatorSetUpdateBlockHeight => BlockHeight
  | validatorSetUpdateDecided => Bool
  | highestViewPhaseVoted => ViewNumber

end Var

/-- The store behind a block tree, each variable holding at most one value. -/
abbrev BlockTree := Kv.Store Var.Val

abbrev WriteBatch := Kv.Batch Var.Val

end HotStuffRs
