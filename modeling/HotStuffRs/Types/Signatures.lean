import HotStuffRs.Types.Certificates
import HotStuffRs.Types.Power

namespace HotStuffRs

open Codec

/-! ## The bytes that are signed, as Borsh encodings -/

theorem encode_phaseVote (chainId : ChainID) (view : ViewNumber) (block : CryptoHash)
    (phase : Phase) :
    Borsh.encode (chainId, view, block, phase) = some (phaseVoteBytes chainId view block phase) := by
  have hbytes : Borsh.encode (chainId, view, block, phase) =
      some (leBytes 8 chainId.val ++ (leBytes 8 view.val ++
        (Borsh.beBytes 32 block.val ++ [phase.tag]))) := rfl
  rw [hbytes, phaseVoteBytes, List.append_assoc, List.append_assoc]

theorem encode_timeoutVote (chainId : ChainID) (view : ViewNumber) :
    Borsh.encode (chainId, view) = some (timeoutVoteBytes chainId view) := rfl

theorem phaseVoteBytes_inj {chainId chainId' : ChainID} {view view' : ViewNumber}
    {block block' : CryptoHash} {phase phase' : Phase}
    (h : phaseVoteBytes chainId view block phase = phaseVoteBytes chainId' view' block' phase') :
    chainId = chainId' ∧ view = view' ∧ block = block' ∧ phase = phase' := by
  have hencode := encode_phaseVote chainId view block phase
  rw [h] at hencode
  have heq := Borsh.encode_inj hencode (encode_phaseVote chainId' view' block' phase')
  simpa only [Prod.mk.injEq] using heq

theorem timeoutVoteBytes_inj {chainId chainId' : ChainID} {view view' : ViewNumber}
    (h : timeoutVoteBytes chainId view = timeoutVoteBytes chainId' view') :
    chainId = chainId' ∧ view = view' := by
  have hencode := encode_timeoutVote chainId view
  rw [h] at hencode
  have heq := Borsh.encode_inj hencode (encode_timeoutVote chainId' view')
  simpa only [Prod.mk.injEq] using heq

theorem length_phaseVoteBytes (chainId : ChainID) (view : ViewNumber) (block : CryptoHash)
    (phase : Phase) : (phaseVoteBytes chainId view block phase).length = 49 := by
  simp [phaseVoteBytes]

theorem length_timeoutVoteBytes (chainId : ChainID) (view : ViewNumber) :
    (timeoutVoteBytes chainId view).length = 16 := by
  simp [timeoutVoteBytes]

theorem phaseVoteBytes_ne {chainId chainId' : ChainID} {view view' : ViewNumber}
    {block : CryptoHash} {phase : Phase} :
    phaseVoteBytes chainId view block phase ≠ timeoutVoteBytes chainId' view' := by
  intro h
  have hlen := congrArg List.length h
  rw [length_phaseVoteBytes, length_timeoutVoteBytes] at hlen
  omega

/-! ## Signature sets as assignments of signatures to validators -/

variable {cr : Crypto} {vs : ValidatorSet} {message : List Byte} {signatures : SignatureSet}
  {signatureOf : VerifyingKey → Option SignatureBytes}

namespace ValidatorSet

/-- The signature that `signatures` has at the position of `validator`. -/
def signatureAt (vs : ValidatorSet) (signatures : SignatureSet) (validator : VerifyingKey) :
    Option SignatureBytes :=
  (vs.position validator).bind fun pos => (signatures[pos]?).join

/-- The validators who have a signature. -/
def signers (vs : ValidatorSet) (signatureOf : VerifyingKey → Option SignatureBytes) :
    Finset VerifyingKey :=
  vs.members.filter fun v => (signatureOf v).isSome

theorem signers_subset : vs.signers signatureOf ⊆ vs.members := Finset.filter_subset _ _

theorem mem_signers {v : VerifyingKey} :
    v ∈ vs.signers signatureOf ↔ v ∈ vs.validators ∧ (signatureOf v).isSome = true := by
  rw [signers, Finset.mem_filter, mem_members]

theorem signers_update {v : VerifyingKey} (hv : v ∈ vs.validators) (signature : SignatureBytes) :
    vs.signers (Function.update signatureOf v (some signature)) =
      insert v (vs.signers signatureOf) := by
  ext v'
  rw [Finset.mem_insert, mem_signers, mem_signers]
  by_cases h : v' = v
  · subst h
    simp [hv]
  · rw [Function.update_of_ne h]
    simp [h]

/-- A signature set of the right length is one signature or none for each validator. -/
theorem eq_map_signatureAt (h : signatures.length = vs.len) :
    signatures = vs.validators.map (vs.signatureAt signatures) := by
  apply List.ext_getElem?
  intro i
  rw [List.getElem?_map]
  cases hv : vs.validators[i]? with
  | none =>
    have hle : vs.len ≤ i := List.getElem?_eq_none_iff.mp hv
    have hs : signatures[i]? = none := List.getElem?_eq_none (by omega)
    rw [hs]
    rfl
  | some v =>
    have hlt : i < vs.len := (List.getElem?_eq_some_iff.mp hv).1
    obtain ⟨signature, hs⟩ : ∃ signature, signatures[i]? = some signature :=
      ⟨_, List.getElem?_eq_getElem (by omega)⟩
    have hpos : vs.position v = some i := position_eq_some.mpr hv
    rw [Option.map_some, signatureAt, hpos, Option.bind_some, hs]
    rfl

end ValidatorSet

/-! ## What the check of a certificate establishes -/

/-- The tally exists if every signature verifies, and is the power of the signers. -/
theorem tallySignatures_map {validators : List VerifyingKey} {p : VerifyingKey → Power}
    {total : TotalPower} :
    tallySignatures cr message (validators.map fun v => (signatureOf v, v, p v)) = some total ↔
      (∀ v ∈ validators, ∀ signature, signatureOf v = some signature →
        cr.verify v message signature = true) ∧
      total = (validators.map fun v => if (signatureOf v).isSome then (p v).val else 0).sum := by
  induction validators generalizing total with
  | nil =>
    rw [List.map_nil, List.map_nil, List.sum_nil, tallySignatures, Option.some.injEq]
    exact ⟨fun h => ⟨by simp, h.symm⟩, fun h => h.2.symm⟩
  | cons v validators ih =>
    rw [List.map_cons, List.map_cons, List.sum_cons, List.forall_mem_cons]
    cases hv : signatureOf v with
    | none =>
      rw [tallySignatures, ih]
      simp
    | some signature =>
      rw [tallySignatures]
      by_cases hver : cr.verify v message signature = true
      · rw [if_pos hver, Option.map_eq_some_iff]
        simp only [ih, Option.some.injEq, forall_eq', hver, true_and, Option.isSome_some, if_true]
        constructor
        · intro h
          obtain ⟨rest, ⟨hrest, hsum⟩, htotal⟩ := h
          exact ⟨hrest, by rw [← htotal, hsum]⟩
        · intro h
          exact ⟨_, ⟨h.1, rfl⟩, h.2.symm⟩
      · rw [if_neg hver]
        simp [hver]

theorem sum_signers :
    (vs.validators.map fun v => if (signatureOf v).isSome then vs.powerAt v else 0).sum =
      Quorum.weight vs.powerAt (vs.signers signatureOf) := by
  rw [ValidatorSet.sum_powerAt, Quorum.weight, ValidatorSet.signers, Finset.sum_filter]

theorem tallySignatures_zip (hlen : signatures.length = vs.len) {total : TotalPower} :
    tallySignatures cr message (signatures.zip vs.validatorsAndPowers) = some total ↔
      (∀ v ∈ vs.validators, ∀ signature, vs.signatureAt signatures v = some signature →
        cr.verify v message signature = true) ∧
      total = Quorum.weight vs.powerAt (vs.signers (vs.signatureAt signatures)) := by
  have hzip : signatures.zip vs.validatorsAndPowers =
      vs.validators.map fun v => (vs.signatureAt signatures v, v, (vs.power v).getD 0) := by
    conv => lhs; rw [ValidatorSet.eq_map_signatureAt hlen]
    exact List.zip_map'
  rw [hzip, tallySignatures_map, ← sum_signers]
  rfl

/-- A certificate passes exactly if it has one slot for each validator, all its signatures
verify, and their signers are a quorum. -/
theorem isCorrectlySigned_iff :
    isCorrectlySigned cr message signatures vs = .ok true ↔
      signatures.length = vs.len ∧
      (∀ v ∈ vs.validators, ∀ signature, vs.signatureAt signatures v = some signature →
        cr.verify v message signature = true) ∧
      ∃ quorum, vs.quorum = .ok quorum ∧
        quorum ≤ Quorum.weight vs.powerAt (vs.signers (vs.signatureAt signatures)) := by
  unfold isCorrectlySigned
  by_cases hlen : signatures.length = vs.len
  · rw [if_neg (not_not.mpr hlen)]
    cases htally : tallySignatures cr message (signatures.zip vs.validatorsAndPowers) with
    | none =>
      simp only [Result.pure_eq, Except.ok.injEq, Bool.false_eq_true, false_iff]
      intro h
      cases htally.symm.trans ((tallySignatures_zip hlen).mpr ⟨h.2.1, rfl⟩)
    | some total =>
      obtain ⟨hver, htotal⟩ := (tallySignatures_zip hlen).mp htally
      simp only [Result.bind_eq_ok, Result.pure_eq, Except.ok.injEq, decide_eq_true_eq, htotal]
      exact ⟨fun h => ⟨hlen, hver, h⟩, fun h => h.2.2⟩
  · rw [if_pos hlen]
    simp [hlen]

/-- Four validators of the same power. -/
def Sample.fourValidators : ValidatorSet :=
  (((ValidatorSet.new.put 1 1).put 2 1).put 3 1).put 4 1

end HotStuffRs
