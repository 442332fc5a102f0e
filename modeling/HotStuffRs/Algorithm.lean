import HotStuffRs.BlockSync.Client

namespace HotStuffRs

open Kv Kv.Process

/-- The configuration of a replica.  Of the signing key only its public key is
kept: signing goes through `Crypto.sign`. -/
structure Configuration where
  me : VerifyingKey
  chainId : ChainID
  blockSyncRequestLimit : U32
  blockSyncResponseTimeout : Duration
  blockSyncBlacklistExpiryTime : Duration
  blockSyncTriggerMinViewDifference : U64
  blockSyncTriggerTimeout : Duration
  epochLength : U32
  maxViewTime : Duration
  deriving DecidableEq

namespace Configuration

variable (config : Configuration)

def hotstuff : HotStuffConfiguration where
  chainId := config.chainId
  me := config.me

def pacemaker : PacemakerConfiguration where
  chainId := config.chainId
  me := config.me
  epochLength := config.epochLength
  maxViewTime := config.maxViewTime

def blockSyncClient : BlockSyncClientConfiguration where
  chainId := config.chainId
  requestLimit := config.blockSyncRequestLimit
  responseTimeout := config.blockSyncResponseTimeout
  blacklistExpiryTime := config.blockSyncBlacklistExpiryTime
  blockSyncTriggerMinViewDifference := config.blockSyncTriggerMinViewDifference
  blockSyncTriggerTimeout := config.blockSyncTriggerTimeout

end Configuration

/-- What the algorithm thread holds in memory. -/
structure Algorithm where
  chainId : ChainID
  hotstuff : HotStuff
  pacemaker : Pacemaker
  blockSyncClient : BlockSyncClient
  deriving DecidableEq

/-- What one iteration of the algorithm thread gets from its surroundings. -/
structure Input where
  /-- What the clock says, which is read once in an iteration. -/
  now : Instant
  app : App
  /-- The message that `recv` returns and its origin, or `none` for a timeout. -/
  message : Option (VerifyingKey × ProgressMessage)
  /-- The responses to a sync triggered by the message, and to one triggered by the tick. -/
  messageResponses : List BlockSyncResponse
  tickResponses : List BlockSyncResponse
  /-- Which of the suitable sync servers a sync picks. -/
  choice : Nat

namespace Algorithm

abbrev Handler (α : Type) := Process Failure Algorithm Action Var.Val α

/-- The view to start in: the one after the highest view with progress, if any. -/
def initView (tree : BlockTree) : Result ViewNumber := do
  let view ← tree.kv.highestViewWithProgress
  if view = 0 then return 0 else U64.add view 1

def new (config : Configuration) (tree : BlockTree) (now : Instant) : Result Algorithm := do
  let initView ← initView tree
  let vss ← tree.kv.validatorSetState
  let pacemaker ← Pacemaker.new config.pacemaker initView vss now
  return {
    chainId := config.chainId
    hotstuff := HotStuff.new config.hotstuff pacemaker.viewInfo vss
    pacemaker
    blockSyncClient := BlockSyncClient.new config.blockSyncClient now }

def onHotStuff {α : Type} (h : HotStuff.Handler α) : Handler α :=
  zoom hotstuff (fun hs alg => { alg with hotstuff := hs }) h

def onPacemaker {α : Type} (h : Pacemaker.Handler α) : Handler α :=
  zoom pacemaker (fun pm alg => { alg with pacemaker := pm }) h

def onBlockSyncClient {α : Type} (h : BlockSyncClient.Handler α) : Handler α :=
  zoom blockSyncClient (fun client alg => { alg with blockSyncClient := client }) h

section

variable (cr : Crypto) (fuel : Nat) (input : Input)

/-- Follow the view of the pacemaker. -/
def followView : Handler Unit := do
  let alg ← mem
  if alg.hotstuff.isViewOutdated alg.pacemaker.viewInfo then
    onHotStuff (HotStuff.enterView cr input.app fuel alg.pacemaker.viewInfo)
  else pure ()

/-- Handle the received message, unless `recv` would not have returned it. -/
def receive : Handler Unit := do
  let alg ← mem
  match input.message with
  | none => pure ()
  | some (origin, msg) =>
    if msg.receivable alg.chainId alg.pacemaker.viewInfo.view then
      match msg with
      | .hotStuff msg => onHotStuff (HotStuff.onReceiveMsg cr input.app fuel msg origin)
      | .pacemaker msg => onPacemaker (Pacemaker.onReceiveMsg cr input.now msg origin)
      | .blockSyncAdvertise msg =>
        onBlockSyncClient (BlockSyncClient.onReceiveMsg cr input.app fuel input.now msg origin
          input.choice input.messageResponses)
    else pure ()

/-- One iteration of `execute`. -/
def iterate : Handler Unit := do
  onPacemaker (Pacemaker.tick cr input.now)
  followView cr fuel input
  receive cr fuel input
  onBlockSyncClient
    (BlockSyncClient.tick cr input.app fuel input.now input.choice input.tickResponses)

end

end Algorithm

/-- A replica between two iterations of its algorithm thread. -/
structure Replica where
  alg : Algorithm
  tree : BlockTree

namespace Replica

abbrev Effect := Kv.Effect Action Var.Val

/-- Start, or restart, a replica over its persistent block tree. -/
def start (config : Configuration) (tree : BlockTree) (now : Instant) : Result Replica := do
  let alg ← Algorithm.new config tree now
  return { alg, tree }

/-- Run one iteration, keeping its effects when it fails. -/
def run (cr : Crypto) (fuel : Nat) (r : Replica) (input : Input) :
    EStateM.Result Failure (World Algorithm Action Var.Val) Unit :=
  Algorithm.iterate cr fuel input { mem := r.alg, base := r.tree, effects := [] }

end Replica
end HotStuffRs
