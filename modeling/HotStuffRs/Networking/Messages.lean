import HotStuffRs.BlockTree.Invariants

namespace HotStuffRs

open Codec

/-! ## HotStuff -/

structure Proposal where
  chainId : ChainID
  view : ViewNumber
  block : Block
  deriving DecidableEq

structure PhaseVote where
  chainId : ChainID
  view : ViewNumber
  block : CryptoHash
  phase : Phase
  signature : SignatureBytes
  deriving DecidableEq

namespace PhaseVote

def messageBytes (vote : PhaseVote) : List Byte :=
  phaseVoteBytes vote.chainId vote.view vote.block vote.phase

def isCorrect (cr : Crypto) (vote : PhaseVote) (signer : VerifyingKey) : Bool :=
  cr.verify signer vote.messageBytes vote.signature

def new (cr : Crypto) (me : VerifyingKey) (chainId : ChainID) (view : ViewNumber)
    (block : CryptoHash) (phase : Phase) : PhaseVote where
  chainId := chainId
  view := view
  block := block
  phase := phase
  signature := cr.sign me (phaseVoteBytes chainId view block phase)

end PhaseVote

structure NewView where
  chainId : ChainID
  view : ViewNumber
  highestPc : PhaseCertificate
  deriving DecidableEq

inductive HotStuffMessage
  | proposal (proposal : Proposal)
  | nudge (nudge : Nudge)
  | phaseVote (vote : PhaseVote)
  | newView (newView : NewView)
  deriving DecidableEq

namespace HotStuffMessage

def chainId : HotStuffMessage → ChainID
  | proposal m => m.chainId
  | nudge m => m.chainId
  | phaseVote m => m.chainId
  | newView m => m.chainId

def view : HotStuffMessage → ViewNumber
  | proposal m => m.view
  | nudge m => m.view
  | phaseVote m => m.view
  | newView m => m.view

end HotStuffMessage

/-! ## Pacemaker -/

structure TimeoutVote where
  chainId : ChainID
  view : ViewNumber
  signature : SignatureBytes
  highestTc : Option TimeoutCertificate
  deriving DecidableEq

namespace TimeoutVote

def messageBytes (vote : TimeoutVote) : List Byte := timeoutVoteBytes vote.chainId vote.view

def isCorrect (cr : Crypto) (vote : TimeoutVote) (signer : VerifyingKey) : Bool :=
  cr.verify signer vote.messageBytes vote.signature

end TimeoutVote

inductive ProgressCertificate
  | timeoutCertificate (tc : TimeoutCertificate)
  | phaseCertificate (pc : PhaseCertificate)
  deriving DecidableEq

namespace ProgressCertificate

def chainId : ProgressCertificate → ChainID
  | timeoutCertificate tc => tc.chainId
  | phaseCertificate pc => pc.chainId

def view : ProgressCertificate → ViewNumber
  | timeoutCertificate tc => tc.view
  | phaseCertificate pc => pc.view

end ProgressCertificate

structure AdvanceView where
  progressCertificate : ProgressCertificate
  deriving DecidableEq

inductive PacemakerMessage
  | timeoutVote (vote : TimeoutVote)
  | advanceView (advanceView : AdvanceView)
  deriving DecidableEq

namespace PacemakerMessage

def chainId : PacemakerMessage → ChainID
  | timeoutVote m => m.chainId
  | advanceView m => m.progressCertificate.chainId

def view : PacemakerMessage → ViewNumber
  | timeoutVote m => m.view
  | advanceView m => m.progressCertificate.view

end PacemakerMessage

/-! ## Block sync -/

structure AdvertiseBlock where
  chainId : ChainID
  highestCommittedBlockHeight : BlockHeight
  signature : SignatureBytes
  deriving DecidableEq

namespace AdvertiseBlock

def messageBytes (m : AdvertiseBlock) : List Byte :=
  leBytes 8 m.chainId.val ++ leBytes 8 m.highestCommittedBlockHeight.val

def isCorrect (cr : Crypto) (m : AdvertiseBlock) (signer : VerifyingKey) : Bool :=
  cr.verify signer m.messageBytes m.signature

end AdvertiseBlock

structure AdvertisePC where
  highestPc : PhaseCertificate
  deriving DecidableEq

inductive BlockSyncAdvertiseMessage
  | advertiseBlock (advertiseBlock : AdvertiseBlock)
  | advertisePc (advertisePc : AdvertisePC)
  deriving DecidableEq

def BlockSyncAdvertiseMessage.chainId : BlockSyncAdvertiseMessage → ChainID
  | advertiseBlock m => m.chainId
  | advertisePc m => m.highestPc.chainId

structure BlockSyncRequest where
  chainId : ChainID
  startHeight : BlockHeight
  limit : U32
  deriving DecidableEq

structure BlockSyncResponse where
  blocks : List Block
  highestPc : PhaseCertificate
  deriving DecidableEq

/-! ## Messages of the algorithm thread -/

inductive ProgressMessage
  | hotStuff (msg : HotStuffMessage)
  | pacemaker (msg : PacemakerMessage)
  | blockSyncAdvertise (msg : BlockSyncAdvertiseMessage)
  deriving DecidableEq

/-- What `ProgressMessageStub::recv` may return in `view`, be it from the network
or from its buffer. -/
def ProgressMessage.receivable (chainId : ChainID) (view : ViewNumber) : ProgressMessage → Bool
  | hotStuff msg => msg.chainId == chainId && msg.view == view
  | pacemaker msg => msg.chainId == chainId && decide (view ≤ msg.view)
  | blockSyncAdvertise msg => msg.chainId == chainId

inductive Message
  | progress (msg : ProgressMessage)
  | blockSyncRequest (request : BlockSyncRequest)
  deriving DecidableEq

end HotStuffRs
