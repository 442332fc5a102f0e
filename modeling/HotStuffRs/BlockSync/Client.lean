import HotStuffRs.Pacemaker.Implementation

namespace HotStuffRs

open Kv Kv.Process

structure BlockSyncClientConfiguration where
  chainId : ChainID
  requestLimit : U32
  responseTimeout : Duration
  blacklistExpiryTime : Duration
  blockSyncTriggerMinViewDifference : U64
  blockSyncTriggerTimeout : Duration
  deriving DecidableEq

structure BlockSyncClientState where
  availableSyncServers : HashMap VerifyingKey BlockHeight
  blacklist : List (VerifyingKey × Instant)
  lastProgressOrSyncTime : Instant
  highestPcView : ViewNumber
  deriving DecidableEq

namespace BlockSyncClientState

def initial (now : Instant) : BlockSyncClientState where
  availableSyncServers := ∅
  blacklist := []
  lastProgressOrSyncTime := now
  highestPcView := 0

def blacklistContainsServerAddress (state : BlockSyncClientState) (server : VerifyingKey) : Bool :=
  state.blacklist.any fun (vk, _) => vk == server

def registerOrUpdateSyncServer (state : BlockSyncClientState) (server : VerifyingKey)
    (highestCommittedBlockHeight : BlockHeight) : BlockSyncClientState :=
  { state with
    availableSyncServers := state.availableSyncServers.insert server highestCommittedBlockHeight }

def blacklistUntil (state : BlockSyncClientState) (server : VerifyingKey) (expiry : Instant) :
    BlockSyncClientState :=
  { state with
    availableSyncServers := state.availableSyncServers.erase server
    blacklist := state.blacklist ++ [(server, expiry)] }

def blacklistSyncServer (state : BlockSyncClientState) (server : VerifyingKey)
    (expiryTime : Duration) (now : Instant) : Result BlockSyncClientState := do
  let expiry ← Instant.add now expiryTime
  return state.blacklistUntil server expiry

/-- The source pops the front while its expiry is not before `now`. -/
def removeExpiredBlacklistedServers (state : BlockSyncClientState) (now : Instant) :
    BlockSyncClientState :=
  { state with blacklist := state.blacklist.dropWhile fun (_, expiry) => now ≤ expiry }

/-- The servers among which `random_sync_server` chooses. -/
def syncServers (state : BlockSyncClientState) (minHeight : Option BlockHeight) :
    List VerifyingKey :=
  (state.availableSyncServers.toList.filter fun (_, height) => minHeight.all (· ≤ height)).map
    Prod.fst

end BlockSyncClientState

structure BlockSyncClient where
  config : BlockSyncClientConfiguration
  state : BlockSyncClientState
  deriving DecidableEq

/-- `ViewNumber - ViewNumber`, computed on `i64` and cast back to `u64`. -/
def ViewNumber.difference (a b : ViewNumber) : Result U64 :=
  let d := (BitVec.ofNat 64 a.val).toInt - (BitVec.ofNat 64 b.val).toInt
  if -2 ^ 63 ≤ d ∧ d < 2 ^ 63 then .ok (BitVec.ofInt 64 d).toFin else .error .panic

namespace BlockSyncClient

abbrev Handler (α : Type) := Process Failure BlockSyncClient Action Var.Val α

def new (config : BlockSyncClientConfiguration) (now : Instant) : BlockSyncClient where
  config := config
  state := BlockSyncClientState.initial now

/-- Whether `vk` is in the committed validator set, or is inserted by pending
updates of a block from the highest committed one on. -/
def isSyncServerAddress (fuel : Nat) (tree : BlockTree) (vk : VerifyingKey) : Result Bool := do
  let committedValidatorSet ← tree.kv.committedValidatorSet
  if committedValidatorSet.contains vk then return true
  else match ← tree.kv.highestCommittedBlock with
  | none => return false
  | some block =>
    let branch ← tree.blocksInBranch fuel block
    let pending := branch.filter fun block =>
      (tree.kv.validatorSetUpdatesStatus block).toOption.any ValidatorSetUpdatesStatus.isPending
    let speculativeVsUpdates := pending.map fun block =>
      match tree.kv.validatorSetUpdatesStatus block with
      | .ok (.pending vsUpdates) => vsUpdates
      | _ => .new
    return speculativeVsUpdates.any fun vsUpdates => (vsUpdates.getInsert vk).isSome

/-- What is left of a failed or finished sync. -/
inductive SyncOutcome
  | done
  | blacklisted
  deriving DecidableEq

section

variable (cr : Crypto) (app : App) (fuel : Nat) (now : Instant)

def blacklist (peer : VerifyingKey) : Handler SyncOutcome := do
  let client ← mem
  let state ← lift (client.state.blacklistSyncServer peer client.config.blacklistExpiryTime now)
  setMem { client with state }
  return .blacklisted

/-- End a sync in which `blocksSynced` blocks came from `peer`, blacklisting it if it
advertised more. -/
def endSync (peer : VerifyingKey) (initHeight : BlockHeight) (blocksSynced : Nat) :
    Handler SyncOutcome := do
  let client ← mem
  let advertised ← lift (Result.unwrap client.state.availableSyncServers[peer]?)
  let minBlocksExpected ← lift (U64.sub advertised initHeight)
  if blocksSynced < minBlocksExpected.val then blacklist now peer
  else return .done

/-- Update the block tree with the highest PC of a response, if it is correct and
safe.  The network is not told of validator set updates that this commits. -/
def updateWithHighestPc (highestPc : PhaseCertificate) : Handler Unit := do
  let client ← mem
  let tree : BlockTree ← store
  let isCorrect ← lift (highestPc.isCorrect cr tree)
  let isSafe ← if isCorrect then lift (tree.safePc highestPc client.config.chainId) else pure false
  if isSafe then
    let (wb, _) ← lift (tree.updateBatch fuel highestPc)
    write wb
  else pure ()

/-- Insert one synced block; `false` if the server is to be blacklisted for it. -/
def syncBlock (block : Block) : Handler Bool := do
  let client ← mem
  let tree : BlockTree ← store
  let isCorrect ← lift (block.isCorrect cr tree)
  let isSafe ← if isCorrect then lift (tree.safeBlock block client.config.chainId) else pure false
  if !isSafe then return false
  else
    let parent := if block.justify.isGenesisPc then none else some block.justify.block
    let view ← lift (tree.appView fuel parent)
    match app.validateBlockForSync block view with
    | .valid appStateUpdates validatorSetUpdates =>
      write (tree.insertBatch block appStateUpdates validatorSetUpdates)
      let tree : BlockTree ← store
      let (wb, validatorSetUpdates) ← lift (tree.updateBatch fuel block.justify)
      write wb
      match validatorSetUpdates with
      | some updates => act (.updateValidatorSet updates)
      | none => pure ()
      return true
    | .invalid => return false

/-- Insert the new blocks of a response in order, updating the block tree with the
response's highest PC after each.  Stop at the first block refused. -/
def syncBlocks (highestPc : PhaseCertificate) : List Block → Nat → Handler (Bool × Nat)
  | [], blocksSynced => return (true, blocksSynced)
  | block :: rest, blocksSynced => do
    let accepted ← syncBlock cr app fuel block
    if accepted then
      updateWithHighestPc cr fuel highestPc
      syncBlocks highestPc rest (blocksSynced + 1)
    else return (false, blocksSynced)

def sendRequest (peer : VerifyingKey) : Handler Unit := do
  let client ← mem
  let tree : BlockTree ← store
  let startHeight ← match ← lift tree.kv.highestCommittedBlockHeight with
    | some height => lift (U64.add height 1)
    | none => pure 0
  act (.send peer (.blockSyncRequest {
    chainId := client.config.chainId, startHeight, limit := client.config.requestLimit }))

/-- The deadline for the response to a request. -/
def responseDeadline : Handler Instant := do
  let client ← mem
  lift (Instant.add now client.config.responseTimeout)

/-- The loop of `sync_with`, given the responses that arrive in time, one for each
request.  A request after the last of them times out. -/
def syncLoop (peer : VerifyingKey) (initHeight : BlockHeight) :
    List BlockSyncResponse → Nat → Handler SyncOutcome
  | [], blocksSynced => do
    sendRequest peer
    let _ ← responseDeadline now
    endSync now peer initHeight blocksSynced
  | response :: responses, blocksSynced => do
    sendRequest peer
    let _ ← responseDeadline now
    let tree : BlockTree ← store
    let newBlocks := response.blocks.dropWhile fun block => tree.kv.contains block.hash
    if newBlocks.isEmpty then endSync now peer initHeight blocksSynced
    else
      let (accepted, blocksSynced) ← syncBlocks cr app fuel response.highestPc newBlocks blocksSynced
      if accepted then syncLoop peer initHeight responses blocksSynced
      else blacklist now peer

def syncWith (peer : VerifyingKey) (responses : List BlockSyncResponse) : Handler SyncOutcome := do
  let tree : BlockTree ← store
  let initHeight ← lift tree.kv.highestCommittedBlockHeight
  syncLoop cr app fuel now peer (initHeight.getD 0) responses 0

/-- Sync with the server that `choice` picks among the suitable ones, if any. -/
def sync (choice : Nat) (responses : List BlockSyncResponse) : Handler Unit := do
  let client ← mem
  let tree : BlockTree ← store
  let minHeight ← lift tree.kv.highestCommittedBlockHeight
  let servers := client.state.syncServers minHeight
  match servers[choice % servers.length]? with
  | some peer => do
    let _ ← syncWith cr app fuel now peer responses
  | none => pure ()
  let client ← mem
  setMem { client with state := { client.state with lastProgressOrSyncTime := now } }

def onReceiveAdvertiseBlock (msg : AdvertiseBlock) (origin : VerifyingKey) : Handler Unit := do
  let client ← mem
  let tree : BlockTree ← store
  if msg.chainId ≠ client.config.chainId ∨ msg.isCorrect cr origin = false then pure ()
  else
    let isServer ← lift (isSyncServerAddress fuel tree origin)
    if !isServer || client.state.blacklistContainsServerAddress origin then pure ()
    else
      setMem { client with
        state := client.state.registerOrUpdateSyncServer origin msg.highestCommittedBlockHeight }

def onReceiveAdvertisePc (msg : AdvertisePC) (origin : VerifyingKey) (choice : Nat)
    (responses : List BlockSyncResponse) : Handler Unit := do
  let client ← mem
  let tree : BlockTree ← store
  let highestViewEntered ← lift tree.kv.highestViewEntered
  if client.state.blacklistContainsServerAddress origin ∨
      msg.highestPc.view < highestViewEntered then pure ()
  else
    let difference ← lift (ViewNumber.difference msg.highestPc.view highestViewEntered)
    if difference ≥ client.config.blockSyncTriggerMinViewDifference then
      let isCorrect ← lift (msg.highestPc.isCorrect cr tree)
      if isCorrect then sync cr app fuel now choice responses else pure ()
    else pure ()

def onReceiveMsg (msg : BlockSyncAdvertiseMessage) (origin : VerifyingKey) (choice : Nat)
    (responses : List BlockSyncResponse) : Handler Unit :=
  match msg with
  | .advertiseBlock msg => onReceiveAdvertiseBlock cr fuel msg origin
  | .advertisePc msg => onReceiveAdvertisePc cr app fuel now msg origin choice responses

def tick (choice : Nat) (responses : List BlockSyncResponse) : Handler Unit := do
  let client ← mem
  let tree : BlockTree ← store
  let state := client.state.removeExpiredBlacklistedServers now
  let highestPc ← lift tree.kv.highestPc
  let state :=
    if highestPc.view > state.highestPcView then
      { state with highestPcView := highestPc.view, lastProgressOrSyncTime := now }
    else state
  setMem { client with state }
  -- `Instant - Instant` saturates at zero.
  if now - state.lastProgressOrSyncTime ≥ client.config.blockSyncTriggerTimeout then
    sync cr app fuel now choice responses
  else pure ()

end

end BlockSyncClient
end HotStuffRs
