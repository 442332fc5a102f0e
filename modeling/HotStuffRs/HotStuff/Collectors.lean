import HotStuffRs.Networking.Messages

namespace HotStuffRs

/-- Types that combine votes of one chain, view and validator set into certificates. -/
class Collector (C : Type) (Vote Certificate : outParam Type) where
  new : ChainID → ViewNumber → ValidatorSet → C
  collect : C → VerifyingKey → Vote → Result (Option Certificate × C)
  chainId : C → ChainID
  view : C → ViewNumber
  validatorSet : C → ValidatorSet

/-! ## Phase votes -/

/-- The order in which the signature sets of a collector are kept. -/
def VoteKey.cmp (a b : CryptoHash × Phase) : Ordering :=
  compareLex (compareOn Prod.fst) (compareOn fun k => k.2.tag) a b

instance : Std.TransCmp VoteKey.cmp :=
  inferInstanceAs <| Std.TransCmp <|
    compareLex (compareOn Prod.fst) (compareOn fun k : CryptoHash × Phase => k.2.tag)

theorem Phase.tag_injective {a b : Phase} (h : a.tag = b.tag) : a = b := by
  revert h
  cases a <;> cases b <;> simp [Phase.tag]

instance : Std.LawfulEqCmp VoteKey.cmp where
  eq_of_compare {a b} h := by
    simp only [VoteKey.cmp, compareLex_eq_eq, compareOn, Std.compare_eq_iff_eq] at h
    exact Prod.ext h.1 (Phase.tag_injective h.2)

structure PhaseVoteCollector where
  chainId : ChainID
  view : ViewNumber
  validatorSet : ValidatorSet
  signatureSets : Std.ExtTreeMap (CryptoHash × Phase) (SignatureSet × TotalPower) VoteKey.cmp
  deriving DecidableEq

namespace PhaseVoteCollector

def new (chainId : ChainID) (view : ViewNumber) (validatorSet : ValidatorSet) :
    PhaseVoteCollector where
  chainId := chainId
  view := view
  validatorSet := validatorSet
  signatureSets := ∅

/-- Collect `vote` by `signer`, returning a certificate if it completes a quorum. -/
def collect (c : PhaseVoteCollector) (signer : VerifyingKey) (vote : PhaseVote) :
    Result (Option PhaseCertificate × PhaseVoteCollector) := do
  if c.chainId ≠ vote.chainId ∨ c.view ≠ vote.view then return (none, c)
  else match c.validatorSet.position signer with
  | none => return (none, c)
  | some pos =>
    let key := (vote.block, vote.phase)
    let (signatures, power) := (c.signatureSets[key]?).getD
      (List.replicate c.validatorSet.len none, 0)
    match signatures[pos]? with
    | none => throw .panic
    | some (some _) =>
      return (none,
        { c with signatureSets := c.signatureSets.insert key (signatures, power) })
    | some none =>
      let signerPower ← Result.unwrap (c.validatorSet.power signer)
      let signatures := signatures.set pos (some vote.signature)
      let power := power + signerPower.val
      let quorum ← c.validatorSet.quorum
      if quorum ≤ power then
        return (
          some {
            chainId := c.chainId
            view := c.view
            block := vote.block
            phase := vote.phase
            signatures },
          { c with signatureSets := c.signatureSets.erase key })
      else
        return (none,
          { c with signatureSets := c.signatureSets.insert key (signatures, power) })

instance : Collector PhaseVoteCollector PhaseVote PhaseCertificate where
  new := new
  collect := collect
  chainId := chainId
  view := view
  validatorSet := validatorSet

end PhaseVoteCollector

/-! ## Timeout votes -/

structure TimeoutVoteCollector where
  chainId : ChainID
  view : ViewNumber
  validatorSet : ValidatorSet
  signatureSetPower : TotalPower
  signatureSet : SignatureSet
  deriving DecidableEq

namespace TimeoutVoteCollector

def new (chainId : ChainID) (view : ViewNumber) (validatorSet : ValidatorSet) :
    TimeoutVoteCollector where
  chainId := chainId
  view := view
  validatorSet := validatorSet
  signatureSetPower := 0
  signatureSet := List.replicate validatorSet.len none

def collect (c : TimeoutVoteCollector) (signer : VerifyingKey) (vote : TimeoutVote) :
    Result (Option TimeoutCertificate × TimeoutVoteCollector) := do
  if c.chainId ≠ vote.chainId ∨ c.view ≠ vote.view then return (none, c)
  else match c.validatorSet.position signer with
  | none => return (none, c)
  | some pos =>
    match c.signatureSet[pos]? with
    | none => throw .panic
    | some (some _) => return (none, c)
    | some none =>
      let signerPower ← Result.unwrap (c.validatorSet.power signer)
      let c := { c with
        signatureSet := c.signatureSet.set pos (some vote.signature)
        signatureSetPower := c.signatureSetPower + signerPower.val }
      let quorum ← c.validatorSet.quorum
      if quorum ≤ c.signatureSetPower then
        return (
          some { chainId := c.chainId, view := c.view, signatures := c.signatureSet },
          c)
      else return (none, c)

instance : Collector TimeoutVoteCollector TimeoutVote TimeoutCertificate where
  new := new
  collect := collect
  chainId := chainId
  view := view
  validatorSet := validatorSet

end TimeoutVoteCollector

/-! ## Pairs of collectors -/

/-- The collectors for the validator sets that may be active: the committed one,
and the previous one until the latest update is decided. -/
structure ActiveCollectorPair (C : Type) where
  cvsCollector : C
  pvsCollector : Option C
  deriving DecidableEq

namespace ActiveCollectorPair

variable {C Vote Certificate : Type} [Collector C Vote Certificate]

def new (chainId : ChainID) (view : ViewNumber) (vss : ValidatorSetState) :
    ActiveCollectorPair C where
  cvsCollector := Collector.new chainId view vss.committedValidatorSet
  pvsCollector :=
    if vss.updateDecided then none
    else some (Collector.new chainId view vss.previousValidatorSet)

def collect (pair : ActiveCollectorPair C) (signer : VerifyingKey) (vote : Vote) :
    Result (Option Certificate × ActiveCollectorPair C) := do
  let (certificate, cvsCollector) ← Collector.collect pair.cvsCollector signer vote
  let pair := { pair with cvsCollector }
  match certificate, pair.pvsCollector with
  | some certificate, _ => return (some certificate, pair)
  | none, none => return (none, pair)
  | none, some pvsCollector =>
    let (certificate, pvsCollector) ← Collector.collect pvsCollector signer vote
    return (certificate, { pair with pvsCollector := some pvsCollector })

/-- Replace the collectors whose validator set is not the one of `vss`. -/
def updateValidatorSets (pair : ActiveCollectorPair C) (vss : ValidatorSetState) :
    ActiveCollectorPair C × Bool :=
  let fresh := Collector.new (C := C) (Collector.chainId pair.cvsCollector)
    (Collector.view pair.cvsCollector)
  let (pair, isUpdated) :=
    if vss.committedValidatorSet ≠ Collector.validatorSet pair.cvsCollector then
      ({ pair with cvsCollector := fresh vss.committedValidatorSet }, true)
    else (pair, false)
  if vss.updateDecided && pair.pvsCollector.isSome then
    ({ pair with pvsCollector := none }, true)
  else if pair.pvsCollector.all fun c => vss.previousValidatorSet ≠ Collector.validatorSet c then
    let pvsCollector :=
      if vss.previousValidatorSet = Collector.validatorSet pair.cvsCollector then
        pair.cvsCollector
      else fresh vss.previousValidatorSet
    ({ pair with pvsCollector := some pvsCollector }, true)
  else (pair, isUpdated)

end ActiveCollectorPair

end HotStuffRs
