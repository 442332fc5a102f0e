import HotStuffRs.Types.Signatures

namespace HotStuffRs

/-! ## Certificates of one view -/

section

variable {cr : Crypto} {vs : ValidatorSet} {byzantine : Finset VerifyingKey}
  {signed : VerifyingKey → List Byte → Prop} {chainId : ChainID} {view : ViewNumber}

/-- Signatures of `validator` verify only on messages that it signed. -/
def Unforgeable (cr : Crypto) (signed : VerifyingKey → List Byte → Prop)
    (validator : VerifyingKey) : Prop :=
  ∀ message signature, cr.verify validator message signature = true → signed validator message

/-- `validator` votes for at most one block and phase in the view. -/
def VotesOnce (signed : VerifyingKey → List Byte → Prop) (chainId : ChainID) (view : ViewNumber)
    (validator : VerifyingKey) : Prop :=
  ∀ block phase block' phase', signed validator (phaseVoteBytes chainId view block phase) →
    signed validator (phaseVoteBytes chainId view block' phase') → block = block' ∧ phase = phase'

/-- The validators who signed a certificate that passes the check are a quorum, and each of
those whose signatures cannot be forged signed its message. -/
theorem signers_of_isCorrectlySigned (signed : VerifyingKey → List Byte → Prop)
    {message : List Byte} {signatures : SignatureSet}
    (h : isCorrectlySigned cr message signatures vs = .ok true) :
    ∃ signers ⊆ vs.members,
      Quorum.threshold (Quorum.weight vs.powerAt vs.members) ≤ Quorum.weight vs.powerAt signers ∧
      ∀ v ∈ signers, Unforgeable cr signed v → signed v message := by
  obtain ⟨-, hver, quorum, hquorum, hle⟩ := isCorrectlySigned_iff.mp h
  obtain ⟨-, rfl⟩ := ValidatorSet.quorum_eq_ok.mp hquorum
  refine ⟨_, ValidatorSet.signers_subset, hle, ?_⟩
  intro v hv hforge
  obtain ⟨hmem, hsome⟩ := ValidatorSet.mem_signers.mp hv
  obtain ⟨signature, hsignature⟩ := Option.isSome_iff_exists.mp hsome
  exact hforge message signature (hver v hmem signature hsignature)

theorem powerOf_le_third (hbyz : 3 * vs.powerOf byzantine < vs.totalPower) :
    3 * Quorum.weight vs.powerAt (vs.members ∩ byzantine) <
      Quorum.weight vs.powerAt vs.members := by
  rw [← ValidatorSet.totalPower_eq]
  exact hbyz

/-- With less than a third of the power Byzantine, the certificates of a view are all about
one block and phase, and the other validators can always make one. -/
theorem certificate_unique (hmax : vs.totalPower ≤ (2 ^ 128 - 1) / 2)
    (hbyz : 3 * vs.powerOf byzantine < vs.totalPower)
    (hforge : ∀ v ∈ vs.validators, v ∉ byzantine → Unforgeable cr signed v)
    (honce : ∀ v ∈ vs.validators, v ∉ byzantine → VotesOnce signed chainId view v) :
    (∀ pc pc' : PhaseCertificate, pc.chainId = chainId → pc.view = view →
      pc'.chainId = chainId → pc'.view = view → pc.isCorrectlySigned cr vs = .ok true →
      pc'.isCorrectlySigned cr vs = .ok true → pc.block = pc'.block ∧ pc.phase = pc'.phase) ∧
    ∃ quorum, vs.quorum = .ok quorum ∧ quorum ≤ vs.powerOf (vs.members \ byzantine) := by
  constructor
  · intro pc pc' hchain hview hchain' hview' hpc hpc'
    obtain ⟨signers, hsub, hquorum, hsigned⟩ := signers_of_isCorrectlySigned signed hpc
    obtain ⟨signers', hsub', hquorum', hsigned'⟩ := signers_of_isCorrectlySigned signed hpc'
    obtain ⟨v, hv, hhonest⟩ :=
      Quorum.exists_honest_common (powerOf_le_third hbyz) hsub hsub' hquorum hquorum'
    obtain ⟨hv, hv'⟩ := Finset.mem_inter.mp hv
    have hmem : v ∈ vs.validators := ValidatorSet.mem_members.mp (hsub hv)
    have hvote := hsigned v hv (hforge v hmem hhonest)
    have hvote' := hsigned' v hv' (hforge v hmem hhonest)
    rw [PhaseCertificate.messageBytes, hchain, hview] at hvote
    rw [PhaseCertificate.messageBytes, hchain', hview'] at hvote'
    exact honce v hmem hhonest _ _ _ _ hvote hvote'
  · have hhonest := Quorum.threshold_le_honest (powerOf_le_third hbyz)
    have hdouble : ∀ power : Nat, power ≤ (2 ^ 128 - 1) / 2 → power * 2 < 2 ^ 128 := by
      intro power h
      omega
    refine ⟨_, ValidatorSet.quorum_eq_ok.mpr ⟨hdouble _ hmax, rfl⟩, ?_⟩
    rw [ValidatorSet.powerOf, Finset.inter_eq_right.mpr Finset.sdiff_subset]
    exact hhonest

end

namespace Sample

/-- Signatures that verify only on the messages that their validators signed. -/
def unforgeable (signed : VerifyingKey → List Byte → Bool) : Crypto where
  sha256
  sign := crypto.sign
  verify key bs signature := signed key bs && crypto.verify key bs signature

/-- Validator 4 signs anything, the others vote for block 9 in view 1. -/
def votesForNine (validator : VerifyingKey) (message : List Byte) : Bool :=
  validator == 4 || message == phaseVoteBytes 7 1 9 .generic

def certificateOfNine : PhaseCertificate :=
  let vote (validator : VerifyingKey) := some (crypto.sign validator (phaseVoteBytes 7 1 9 .generic))
  ⟨7, 1, 9, .generic, [vote 1, vote 2, vote 3, none]⟩

theorem isCorrectlySigned_certificateOfNine :
    certificateOfNine.isCorrectlySigned (unforgeable votesForNine) fourValidators = .ok true := by
  decide +kernel

theorem votesOnce_of_votesForNine {validator : VerifyingKey} (h : validator ≠ 4) :
    VotesOnce (fun v message => votesForNine v message = true) 7 1 validator := by
  intro block phase block' phase' hsigned hsigned'
  simp only [votesForNine, beq_eq_false_iff_ne.mpr h, Bool.false_or, beq_iff_eq] at hsigned hsigned'
  obtain ⟨-, -, hblock, hphase⟩ := phaseVoteBytes_inj (hsigned.trans hsigned'.symm)
  exact ⟨hblock, hphase⟩

end Sample

/-- Validators 1, 2 and 3 made a certificate for block 9 in view 1, so validator 4 cannot help
to make one for another block. -/
theorem certificate_unique_fourValidators :
    (∀ pc : PhaseCertificate, pc.chainId = 7 → pc.view = 1 →
      pc.isCorrectlySigned (Sample.unforgeable Sample.votesForNine) Sample.fourValidators =
        .ok true → pc.block = 9 ∧ pc.phase = .generic) ∧
    ∃ quorum, Sample.fourValidators.quorum = .ok quorum ∧
      quorum ≤ Sample.fourValidators.powerOf (Sample.fourValidators.members \ {4}) := by
  have hhonest : ∀ v ∈ Sample.fourValidators.validators, v ∉ ({4} : Finset VerifyingKey) → v ≠ 4 :=
    fun v _ hv => fun h => hv (Finset.mem_singleton.mpr h)
  have hforge : ∀ v ∈ Sample.fourValidators.validators, v ∉ ({4} : Finset VerifyingKey) →
      Unforgeable (Sample.unforgeable Sample.votesForNine)
        (fun v message => Sample.votesForNine v message = true) v :=
    fun v _ _ message signature h => (Bool.and_eq_true_iff.mp h).1
  have honce : ∀ v ∈ Sample.fourValidators.validators, v ∉ ({4} : Finset VerifyingKey) →
      VotesOnce (fun v message => Sample.votesForNine v message = true) 7 1 v :=
    fun v hmem hv => Sample.votesOnce_of_votesForNine (hhonest v hmem hv)
  obtain ⟨hunique, hquorum⟩ :=
    certificate_unique (by decide +kernel) (by decide +kernel) hforge honce
  refine ⟨?_, hquorum⟩
  intro pc hchain hview hpc
  exact hunique pc Sample.certificateOfNine hchain hview rfl rfl hpc
    Sample.isCorrectlySigned_certificateOfNine

end HotStuffRs
