import HotStuffRs.Networking.Messages

namespace HotStuffRs

/-- Count the validators of one row of the abstract array, those whose power
reaches `threshold`, from `counter` on, until the count is at `index`. -/
def searchRow (threshold index : Nat) :
    List (VerifyingKey × Power) → Nat → Except VerifyingKey Nat
  | [], counter => .ok counter
  | (validator, power) :: rest, counter =>
    if threshold ≤ power.val then
      if counter = index then .error validator else searchRow threshold index rest (counter + 1)
    else searchRow threshold index rest counter

/-- Search the `rows` rows of the abstract array from `threshold` on. -/
def searchLeader (validators : List (VerifyingKey × Power)) (index : Nat) :
    Nat → Nat → Nat → Option VerifyingKey
  | 0, _, _ => none
  | rows + 1, threshold, counter =>
    match searchRow threshold index validators counter with
    | .error leader => some leader
    | .ok counter => searchLeader validators index rows (threshold + 1) counter

/-- The leader of `view`, by interleaved weighted round robin.  It panics on an
empty set and on a total power whose low 64 bits are zero. -/
def selectLeader (view : ViewNumber) (vs : ValidatorSet) : Result VerifyingKey := do
  let pTotal := vs.totalPower % 2 ^ 64
  if pTotal = 0 then throw .panic
  else
    let index := view.val % pTotal
    let powers := vs.validatorsAndPowers.map fun (_, power) => power.val
    let pMax ← Result.unwrap powers.max?
    Result.unwrap (searchLeader vs.validatorsAndPowers index pMax 1 0)

def isValidator (replica : VerifyingKey) (vss : ValidatorSetState) : Bool :=
  vss.committedValidatorSet.contains replica ||
    (!vss.updateDecided && vss.previousValidatorSet.contains replica)

def isProposer (validator : VerifyingKey) (view : ViewNumber) (vss : ValidatorSetState) :
    Result Bool := do
  let leader ← selectLeader view vss.committedValidatorSet
  if validator = leader then return true
  else if vss.updateDecided then return false
  else
    let leader ← selectLeader view vss.previousValidatorSet
    return validator == leader

def isPhaseVoter (replica : VerifyingKey) (vss : ValidatorSetState) (justify : PhaseCertificate) :
    Bool :=
  if vss.updateDecided then vss.committedValidatorSet.contains replica
  else match justify.phase with
  | .generic | .prepare | .precommit | .decide => vss.previousValidatorSet.contains replica
  | .commit => vss.committedValidatorSet.contains replica

def phaseVoteRecipient (vote : PhaseVote) (vss : ValidatorSetState) : Result VerifyingKey := do
  let next ← U64.add vote.view 1
  if vss.updateDecided then selectLeader next vss.committedValidatorSet
  else match vote.phase with
  | .generic | .prepare | .precommit | .commit => selectLeader next vss.previousValidatorSet
  | .decide => selectLeader next vss.committedValidatorSet

def newViewRecipients (newView : NewView) (vss : ValidatorSetState) :
    Result (VerifyingKey × Option VerifyingKey) := do
  let next ← U64.add newView.view 1
  let committedVsLeader ← selectLeader next vss.committedValidatorSet
  if vss.updateDecided then return (committedVsLeader, none)
  else
    let prevVsLeader ← selectLeader next vss.previousValidatorSet
    return (committedVsLeader, some prevVsLeader)

end HotStuffRs
