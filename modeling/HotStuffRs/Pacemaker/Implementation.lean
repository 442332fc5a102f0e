import HotStuffRs.HotStuff.Implementation

namespace HotStuffRs

open Kv Kv.Process

/-- Nanoseconds. -/
abbrev Duration := Nat

/-- `Duration::as_secs`. -/
def Duration.asSecs (d : Duration) : Nat := d / 10 ^ 9

/-- `Duration::from_secs`. -/
def Duration.fromSecs (secs : Nat) : Duration := secs * 10 ^ 9

/-- The first instant that cannot be represented where the seconds are an `i64`, as on Linux. -/
def Instant.limit : Instant := 2 ^ 63 * 10 ^ 9

/-- `Instant + Duration`, which panics on overflow. -/
def Instant.add (t : Instant) (d : Duration) : Result Instant :=
  if t + d < Instant.limit then .ok (t + d) else .error .panic

theorem Instant.add_eq_ok {t t' : Instant} {d : Duration} :
    Instant.add t d = .ok t' ↔ t + d < Instant.limit ∧ t + d = t' := by
  unfold Instant.add
  split
  · rename_i hlt
    simp [hlt]
  · rename_i hnot
    simp [hnot]

structure PacemakerConfiguration where
  chainId : ChainID
  /-- The public key of the replica's keypair. -/
  me : VerifyingKey
  epochLength : U32
  maxViewTime : Duration
  deriving DecidableEq

structure PacemakerState where
  timeouts : HashMap ViewNumber Instant
  timeoutVoteCollectors : ActiveCollectorPair TimeoutVoteCollector
  lastAdvanceView : Option ViewNumber
  deriving DecidableEq

structure Pacemaker where
  config : PacemakerConfiguration
  state : PacemakerState
  viewInfo : ViewInfo
  deriving DecidableEq

/-- Whether `view` is an epoch-change view.  An epoch length of zero panics. -/
def isEpochChangeView (view : ViewNumber) (epochLength : U32) : Result Bool :=
  if epochLength.val = 0 then .error .panic else .ok (view.val % epochLength.val == 0)

/-- The epoch of `view`: its number divided by the epoch length, rounded up. -/
def epoch (view : ViewNumber) (epochLength : U32) : Result Nat :=
  if epochLength.val = 0 then .error .panic
  else .ok ((view.val + epochLength.val - 1) / epochLength.val)

/-- The deadlines of the views from `startView` to the end of its epoch, for an
epoch entered at `now`. -/
def epochTimeouts (config : PacemakerConfiguration) (startView : ViewNumber) (now : Instant) :
    Result (List (ViewNumber × Instant)) := do
  let epoch ← epoch startView config.epochLength
  let epochView := epoch * config.epochLength.val
  if 2 ^ 64 ≤ epochView then throw .panic
  else (List.range (epochView + 1 - startView.val)).mapM fun i =>
    let secs := config.maxViewTime.asSecs * (i + 1)
    if 2 ^ 64 ≤ secs then throw .panic
    else do
      let deadline ← Instant.add now (Duration.fromSecs secs)
      return (Fin.ofNat _ (startView.val + i), deadline)

def insertTimeouts (timeouts : HashMap ViewNumber Instant) (new : List (ViewNumber × Instant)) :
    HashMap ViewNumber Instant :=
  new.foldl (fun timeouts (view, deadline) => timeouts.insert view deadline) timeouts

namespace PacemakerState

def initial (config : PacemakerConfiguration) (initView : ViewNumber) (vss : ValidatorSetState)
    (now : Instant) : Result PacemakerState := do
  let timeouts ← epochTimeouts config initView now
  return {
    timeouts := insertTimeouts ∅ timeouts
    timeoutVoteCollectors := ActiveCollectorPair.new config.chainId initView vss
    lastAdvanceView := none }

def updateTimeouts (state : PacemakerState) (epochStartView : ViewNumber)
    (config : PacemakerConfiguration) (now : Instant) : Result PacemakerState := do
  let timeouts ← epochTimeouts config epochStartView now
  return { state with
    timeouts := insertTimeouts (state.timeouts.filter fun view _ => epochStartView ≤ view)
      timeouts }

def deadlineOf (state : PacemakerState) (view : ViewNumber) : Result Instant :=
  match state.timeouts[view]? with
  | some deadline => .ok deadline
  | none => .error (.pacemakerError (.getViewTimeoutError view))

end PacemakerState

namespace Pacemaker

abbrev Handler (α : Type) := Process Failure Pacemaker Action Var.Val α

def new (config : PacemakerConfiguration) (initView : ViewNumber) (vss : ValidatorSetState)
    (now : Instant) : Result Pacemaker := do
  let state ← PacemakerState.initial config initView vss now
  let deadline ← state.deadlineOf initView
  return { config, state, viewInfo := { view := initView, deadline } }

/-- Go to `nextView`, which must be greater than the current view. -/
def updateView (nextView : ViewNumber) (vss : ValidatorSetState) (now : Instant) :
    Handler Unit := do
  let pm ← mem
  if nextView ≤ pm.viewInfo.view then
    throw (.pacemakerError (.nonIncreasingViewError pm.viewInfo.view nextView))
  else
    let curEpoch ← lift (epoch pm.viewInfo.view pm.config.epochLength)
    let nextEpoch ← lift (epoch nextView pm.config.epochLength)
    let state ←
      if curEpoch ≠ nextEpoch then lift (pm.state.updateTimeouts nextView pm.config now)
      else pure pm.state
    let deadline ← lift (state.deadlineOf nextView)
    setMem { pm with
      state := { state with
        timeoutVoteCollectors := ActiveCollectorPair.new pm.config.chainId nextView vss }
      viewInfo := { view := nextView, deadline } }

/-- Put off the deadline of the current view, which must be an epoch-change view. -/
def extendView (now : Instant) : Handler Unit := do
  let pm ← mem
  let isEpochChange ← lift (isEpochChangeView pm.viewInfo.view pm.config.epochLength)
  if !isEpochChange then
    throw (.pacemakerError (.triedToExtendNonEpochView pm.viewInfo.view))
  else
    let deadline ← lift (Instant.add now pm.config.maxViewTime)
    setMem { pm with
      state := { pm.state with timeouts := pm.state.timeouts.insert pm.viewInfo.view deadline }
      viewInfo := { pm.viewInfo with deadline } }

def broadcast (msg : PacemakerMessage) : Handler Unit :=
  act (.broadcast (.progress (.pacemaker msg)))

/-- Whether no `AdvanceView` was sent in the current view yet. -/
def notAdvancedYet (pm : Pacemaker) : Bool :=
  pm.state.lastAdvanceView.all (· < pm.viewInfo.view)

/-- Broadcast an `AdvanceView`, and take note of it. -/
def advance (certificate : ProgressCertificate) : Handler Unit := do
  broadcast (.advanceView { progressCertificate := certificate })
  let pm ← mem
  setMem { pm with state := { pm.state with lastAdvanceView := some pm.viewInfo.view } }

/-- Whether `tc` is for a higher view than the highest timeout certificate. -/
def isHigherTc (tree : BlockTree) (tc : TimeoutCertificate) : Result Bool := do
  let highestTc ← tree.kv.highestTc
  return highestTc.all fun highest => highest.view < tc.view

section

variable (cr : Crypto) (now : Instant)

def onTimeout (vss : ValidatorSetState) : Handler Unit := do
  let pm ← mem
  let tree : BlockTree ← store
  let curView := pm.viewInfo.view
  let isEpochChange ← lift (isEpochChangeView curView pm.config.epochLength)
  if isEpochChange then
    if isValidator pm.config.me vss then
      let highestTc ← lift tree.kv.highestTc
      broadcast (.timeoutVote {
        chainId := pm.config.chainId
        view := curView
        signature := cr.sign pm.config.me (timeoutVoteBytes pm.config.chainId curView)
        highestTc })
    extendView now
  else
    let nextView ← lift (U64.add curView 1)
    updateView nextView vss now

def tick : Handler Unit := do
  let pm ← mem
  let tree : BlockTree ← store
  let vss ← lift tree.kv.validatorSetState
  if pm.viewInfo.deadline < now then onTimeout cr now vss
  else
    setMem { pm with state := { pm.state with
      timeoutVoteCollectors := (pm.state.timeoutVoteCollectors.updateValidatorSets vss).1 } }
    let highestPc ← lift tree.kv.highestPc
    if pm.viewInfo.view ≤ highestPc.view ∧ !highestPc.isGenesisPc ∧
        isValidator pm.config.me vss ∧ notAdvancedYet pm then
      advance (.phaseCertificate highestPc)

/-- Store `newTc`, the timeout certificate that a vote completed, if it is higher than
the highest one, and broadcast it. -/
def onCollectTc (vss : ValidatorSetState) (newTc : TimeoutCertificate) : Handler Unit := do
  let pm ← mem
  let tree : BlockTree ← store
  let isHigher ← lift (isHigherTc tree newTc)
  if isHigher then
    write (WriteBatch.setHighestTc newTc)
    -- As `&&` binds tighter than `||`, a replica that is no validator passes the
    -- second disjunct.
    if (isValidator pm.config.me vss ∧ pm.state.lastAdvanceView = none) ∨
        pm.state.lastAdvanceView.any (· < pm.viewInfo.view) then
      advance (.timeoutCertificate newTc)

/-- Store `tc`, the timeout certificate that came with a vote, if it is higher than the
highest one, and go to the view after it. -/
def onFallbackTc (vss : ValidatorSetState) (tc : TimeoutCertificate) : Handler Unit := do
  let tree : BlockTree ← store
  let isHigher ← lift (isHigherTc tree tc)
  if isHigher then
    write (WriteBatch.setHighestTc tc)
    let nextView ← lift (U64.add tc.view 1)
    updateView nextView vss now

/-- The timeout certificate that a vote carries, if it is correct. -/
def fallbackTc (tree : BlockTree) (timeoutVote : TimeoutVote) :
    Result (Option TimeoutCertificate) := do
  match timeoutVote.highestTc with
  | some tc =>
    let isCorrect ← tc.isCorrect cr tree
    return if isCorrect then some tc else none
  | none => return none

def onReceiveTimeoutVote (timeoutVote : TimeoutVote) (origin : VerifyingKey) :
    Handler Unit := do
  let pm ← mem
  let tree : BlockTree ← store
  let vss ← lift tree.kv.validatorSetState
  if isValidator origin vss ∧ timeoutVote.isCorrect cr origin then
    let isEpochChange ← lift (isEpochChangeView timeoutVote.view pm.config.epochLength)
    if isEpochChange then
      let fallbackTc ← lift (fallbackTc cr tree timeoutVote)
      let (newTc, timeoutVoteCollectors) ←
        lift (pm.state.timeoutVoteCollectors.collect origin timeoutVote)
      setMem { pm with state := { pm.state with timeoutVoteCollectors } }
      match newTc, fallbackTc with
      | some newTc, _ => onCollectTc vss newTc
      | none, some tc => onFallbackTc now vss tc
      | none, none => pure ()

/-- Whether `certificate` may move a replica to another view. -/
def isValidCertificate (tree : BlockTree) (epochLength : U32) :
    ProgressCertificate → Result Bool
  | .phaseCertificate pc => pc.isCorrect cr tree
  | .timeoutCertificate tc => do
    let isCorrect ← tc.isCorrect cr tree
    if isCorrect then isEpochChangeView tc.view epochLength else return false

/-- Store a timeout certificate that is higher than the highest one. -/
def updateHighestTc : ProgressCertificate → Handler Unit
  | .timeoutCertificate tc => do
    let tree : BlockTree ← store
    let isHigher ← lift (isHigherTc tree tc)
    if isHigher then write (WriteBatch.setHighestTc tc)
  | .phaseCertificate _ => pure ()

def onReceiveAdvanceView (advanceView : AdvanceView) (origin : VerifyingKey) :
    Handler Unit := do
  let pm ← mem
  let tree : BlockTree ← store
  let vss ← lift tree.kv.validatorSetState
  if isValidator origin vss then
    let certificate := advanceView.progressCertificate
    let isValid ← lift (isValidCertificate cr tree pm.config.epochLength certificate)
    if isValid then
      updateHighestTc certificate
      if isValidator pm.config.me vss ∧ notAdvancedYet pm then
        advance certificate
      let nextView ← lift (U64.add certificate.view 1)
      updateView nextView vss now

def onReceiveMsg (msg : PacemakerMessage) (origin : VerifyingKey) : Handler Unit :=
  match msg with
  | .timeoutVote timeoutVote => onReceiveTimeoutVote cr now timeoutVote origin
  | .advanceView advanceView => onReceiveAdvanceView cr now advanceView origin

end

end Pacemaker
end HotStuffRs
