import HotStuffRs.Kv.Process
import HotStuffRs.HotStuff.Collectors
import HotStuffRs.HotStuff.Roles

namespace HotStuffRs

open Kv Kv.Process

inductive ValidateBlockResponse
  | valid (appStateUpdates : Option AppStateUpdates)
      (validatorSetUpdates : Option ValidatorSetUpdates)
  | invalid

/-- The user's application, as it answers one call.  It may answer differently the
next time. -/
structure App where
  produceBlock : ViewNumber → Option CryptoHash → BlockTree.AppBlockTreeView → CryptoHash × Data
  validateBlock : Block → BlockTree.AppBlockTreeView → ValidateBlockResponse
  validateBlockForSync : Block → BlockTree.AppBlockTreeView → ValidateBlockResponse

/-- What a replica does to the network. -/
inductive Action
  | send (peer : VerifyingKey) (msg : Message)
  | broadcast (msg : Message)
  | updateValidatorSet (updates : ValidatorSetUpdates)
  deriving DecidableEq

/-- Nanoseconds on the monotonic clock. -/
abbrev Instant := Nat

structure ViewInfo where
  view : ViewNumber
  deadline : Instant
  deriving DecidableEq

/-- The proposals received in the current view. -/
inductive ProposalStatus
  | waitingForProposal
  | oneLeaderProposed (leader : VerifyingKey)
  | allLeadersProposed
  deriving DecidableEq

namespace ProposalStatus

def hasOneLeaderProposed : ProposalStatus → VerifyingKey → Bool
  | oneLeaderProposed validator, leader => validator == leader
  | _, _ => false

def haveAllLeadersProposed : ProposalStatus → Bool
  | allLeadersProposed => true
  | _ => false

/-- Stop accepting proposals and nudges from `leader`. -/
def proposed (leader : VerifyingKey) : ProposalStatus → ProposalStatus
  | waitingForProposal => oneLeaderProposed leader
  | oneLeaderProposed _ => allLeadersProposed
  | allLeadersProposed => allLeadersProposed

end ProposalStatus

structure HotStuffConfiguration where
  chainId : ChainID
  /-- The public key of the replica's keypair. -/
  me : VerifyingKey
  deriving DecidableEq

structure HotStuff where
  config : HotStuffConfiguration
  viewInfo : ViewInfo
  proposalStatus : ProposalStatus
  phaseVoteCollectors : ActiveCollectorPair PhaseVoteCollector
  deriving DecidableEq

namespace HotStuff

abbrev Handler (α : Type) := Process Failure HotStuff Action Var.Val α

def new (config : HotStuffConfiguration) (viewInfo : ViewInfo) (vss : ValidatorSetState) :
    HotStuff where
  config := config
  viewInfo := viewInfo
  proposalStatus := .waitingForProposal
  phaseVoteCollectors := ActiveCollectorPair.new config.chainId viewInfo.view vss

def isViewOutdated (hs : HotStuff) (newViewInfo : ViewInfo) : Bool :=
  newViewInfo.view ≠ hs.viewInfo.view

def send (peer : VerifyingKey) (msg : HotStuffMessage) : Handler Unit :=
  act (.send peer (.progress (.hotStuff msg)))

def broadcast (msg : HotStuffMessage) : Handler Unit := act (.broadcast (.progress (.hotStuff msg)))

section

variable (cr : Crypto) (app : App) (fuel : Nat)

/-- Update the block tree with `justify`, tell the network of committed validator
set updates, and let the vote collectors follow the validator set state. -/
def updateBlockTree (justify : PhaseCertificate) : Handler ValidatorSetState := do
  let tree : BlockTree ← store
  let (wb, validatorSetUpdates) ← lift (tree.updateBatch fuel justify)
  write wb
  match validatorSetUpdates with
  | some updates => act (.updateValidatorSet updates)
  | none => pure ()
  let tree : BlockTree ← store
  let vss ← lift tree.kv.validatorSetState
  let hs ← mem
  setMem { hs with
    phaseVoteCollectors := (hs.phaseVoteCollectors.updateValidatorSets vss).1 }
  return vss

/-- Vote for `block` in `phase`, if allowed to and not done so yet in this view. -/
def vote (vss : ValidatorSetState) (justify : PhaseCertificate) (block : CryptoHash)
    (phase : Phase) : Handler Unit := do
  let hs ← mem
  let tree : BlockTree ← store
  if isPhaseVoter hs.config.me vss justify then
    let highestViewVoted ← lift tree.kv.highestViewPhaseVoted
    if highestViewVoted.all (· < hs.viewInfo.view) then
      let phaseVote :=
        PhaseVote.new cr hs.config.me hs.config.chainId hs.viewInfo.view block phase
      let recipient ← lift (phaseVoteRecipient phaseVote vss)
      send recipient (.phaseVote phaseVote)
      write (WriteBatch.setHighestViewPhaseVoted hs.viewInfo.view)
    else pure ()
  else pure ()

/-- Stop accepting proposals and nudges from `origin` in this view. -/
def stopAccepting (origin : VerifyingKey) : Handler Unit := do
  let hs ← mem
  setMem { hs with proposalStatus := hs.proposalStatus.proposed origin }

def onReceiveProposal (proposal : Proposal) (origin : VerifyingKey) : Handler Unit := do
  let hs ← mem
  let tree : BlockTree ← store
  let block := proposal.block
  let isCorrect ← lift (block.isCorrect cr tree)
  let isSafe ← if isCorrect then lift (tree.safeBlock block hs.config.chainId) else pure false
  if !isSafe then
    stopAccepting origin
  else
    let parent := if block.justify.isGenesisPc then none else some block.justify.block
    let view ← lift (tree.appView fuel parent)
    match app.validateBlock block view with
    | .valid appStateUpdates validatorSetUpdates =>
      write (tree.insertBatch block appStateUpdates validatorSetUpdates)
      let vss ← updateBlockTree fuel block.justify
      vote cr vss block.justify block.hash
        (if validatorSetUpdates.isSome then .prepare else .generic)
    | .invalid => pure ()
    stopAccepting origin

/-- The phase to vote in on a nudge whose justify has the given phase. -/
def nudgedPhase : Phase → Result Phase
  | .prepare => .ok .precommit
  | .precommit => .ok .commit
  | .commit => .ok .decide
  | .generic | .decide => .error .panic

def onReceiveNudge (nudge : Nudge) (origin : VerifyingKey) : Handler Unit := do
  let hs ← mem
  let tree : BlockTree ← store
  let isCorrect ← lift (nudge.justify.isCorrect cr tree)
  let isSafe ←
    if isCorrect then lift (tree.safeNudge nudge hs.viewInfo.view hs.config.chainId)
    else pure false
  if !isSafe then
    stopAccepting origin
  else
    let vss ← updateBlockTree fuel nudge.justify
    -- The phase is only computed once voting is allowed, but `safeNudge` holds by then.
    let phase ← lift (nudgedPhase nudge.justify.phase)
    vote cr vss nudge.justify nudge.justify.block phase
    stopAccepting origin

/-- Update the block tree with `pc`, if it is correct and safe. -/
def acceptPc (pc : PhaseCertificate) : Handler Unit := do
  let hs ← mem
  let tree : BlockTree ← store
  let isCorrect ← lift (pc.isCorrect cr tree)
  let isSafe ← if isCorrect then lift (tree.safePc pc hs.config.chainId) else pure false
  if isSafe then
    let _ ← updateBlockTree fuel pc
  else pure ()

def onReceivePhaseVote (phaseVote : PhaseVote) (signer : VerifyingKey) : Handler Unit := do
  let hs ← mem
  if phaseVote.isCorrect cr signer then
    let (newPc, phaseVoteCollectors) ← lift (hs.phaseVoteCollectors.collect signer phaseVote)
    setMem { hs with phaseVoteCollectors }
    match newPc with
    | some newPc => acceptPc cr fuel newPc
    | none => pure ()
  else pure ()

def onReceiveNewView (newView : NewView) : Handler Unit := acceptPc cr fuel newView.highestPc

def onReceiveMsg (msg : HotStuffMessage) (origin : VerifyingKey) : Handler Unit := do
  let hs ← mem
  let tree : BlockTree ← store
  -- A proposal or nudge needs a proposer of this view that has not proposed yet.
  let accepts ← match msg with
    | .proposal _ | .nudge _ => do
      let vss ← lift tree.kv.validatorSetState
      let isProposer ← lift (isProposer origin hs.viewInfo.view vss)
      pure (isProposer && !(hs.proposalStatus.hasOneLeaderProposed origin ||
        hs.proposalStatus.haveAllLeadersProposed))
    | .phaseVote _ | .newView _ => pure true
  if accepts then
    match msg with
    | .proposal proposal => onReceiveProposal cr app fuel proposal origin
    | .nudge nudge => onReceiveNudge cr fuel nudge origin
    | .phaseVote phaseVote => onReceivePhaseVote cr fuel phaseVote origin
    | .newView newView => onReceiveNewView cr fuel newView
  else pure ()

/-- Propose again the block `blockHash`. -/
def repropose (blockHash : CryptoHash) : Handler Unit := do
  let hs ← mem
  let tree : BlockTree ← store
  match ← lift (tree.kv.block blockHash) with
  | none => throw (.error (.blockExpectedButNotFound blockHash))
  | some block =>
    broadcast (.proposal { chainId := hs.config.chainId, view := hs.viewInfo.view, block })

/-- Propose a new block on top of `highestPc`. -/
def proposeNew (highestPc : PhaseCertificate) : Handler Unit := do
  let hs ← mem
  let tree : BlockTree ← store
  let (parent, childHeight) ←
    if highestPc.isGenesisPc then pure (none, 0)
    else do
      match ← lift (tree.kv.blockHeight highestPc.block) with
      | none => throw (.error (.blockExpectedButNotFound highestPc.block))
      | some parentHeight =>
        let childHeight ← lift (U64.add parentHeight 1)
        pure (some highestPc.block, childHeight)
  let view ← lift (tree.appView fuel parent)
  let (dataHash, data) := app.produceBlock hs.viewInfo.view parent view
  let block ← lift (Block.new cr childHeight highestPc dataHash data)
  broadcast (.proposal { chainId := hs.config.chainId, view := hs.viewInfo.view, block })

/-- Broadcast what the leader of the view has to propose. -/
def propose : Handler Unit := do
  let hs ← mem
  let tree : BlockTree ← store
  match ← lift (tree.reproposeBlock hs.viewInfo.view) with
  | some blockHash => repropose blockHash
  | none =>
    let highestPc ← lift tree.kv.highestPc
    match highestPc.phase with
    | .generic | .decide => proposeNew cr app fuel highestPc
    | .prepare | .precommit | .commit =>
      broadcast
        (.nudge { chainId := hs.config.chainId, view := hs.viewInfo.view, justify := highestPc })

/-- Send a `NewView` for the view being left to the leaders of the next one. -/
def sendNewView (vss : ValidatorSetState) : Handler Unit := do
  let hs ← mem
  let tree : BlockTree ← store
  let highestPc ← lift tree.kv.highestPc
  let newView : NewView :=
    { chainId := hs.config.chainId, view := hs.viewInfo.view, highestPc }
  let (committedVsLeader, prevVsLeader) ← lift (newViewRecipients newView vss)
  send committedVsLeader (.newView newView)
  match prevVsLeader with
  | some prevVsLeader => send prevVsLeader (.newView newView)
  | none => pure ()

def enterView (newViewInfo : ViewInfo) : Handler Unit := do
  let tree : BlockTree ← store
  let vss ← lift tree.kv.validatorSetState
  sendNewView vss
  let hs ← mem
  setMem { hs with
    viewInfo := newViewInfo
    proposalStatus := .waitingForProposal
    phaseVoteCollectors := ActiveCollectorPair.new hs.config.chainId newViewInfo.view vss }
  write (WriteBatch.setHighestViewEntered newViewInfo.view)
  let isProposer ← lift (isProposer hs.config.me newViewInfo.view vss)
  if isProposer then propose cr app fuel else pure ()

end

end HotStuff
end HotStuffRs
