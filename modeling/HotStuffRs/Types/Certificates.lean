import HotStuffRs.Types.ValidatorSet

namespace HotStuffRs

open Codec

/-- The voting phases: `generic` in the pipelined mode, the other four in the
phased mode. -/
inductive Phase
  | generic
  | prepare
  | precommit
  | commit
  | decide
  deriving DecidableEq

namespace Phase

@[simp] def isGeneric (p : Phase) : Bool := p == generic

@[simp] def isPrepare (p : Phase) : Bool := p == prepare

@[simp] def isPrecommit (p : Phase) : Bool := p == precommit

@[simp] def isCommit (p : Phase) : Bool := p == commit

@[simp] def isDecide (p : Phase) : Bool := p == decide

def tag : Phase → Byte
  | generic => 0
  | prepare => 1
  | precommit => 2
  | commit => 3
  | decide => 4

def ofTag (b : Byte) : Option Phase := [generic, prepare, precommit, commit, decide][b.val]?

instance : Borsh Phase := Borsh.tagged tag ofTag fun p => by cases p <;> rfl

end Phase

/-- The primitives of the cryptography crates that the protocol calls. -/
structure Crypto where
  /-- SHA-256. -/
  sha256 : List Byte → CryptoHash
  /-- Ed25519 signing with the secret key of the given public key. -/
  sign : VerifyingKey → List Byte → SignatureBytes
  /-- Ed25519 verification. -/
  verify : VerifyingKey → List Byte → SignatureBytes → Bool

namespace Sample

/-- A hash that is good enough to follow a few messages. -/
def sha256 (bs : List Byte) : CryptoHash := Fin.ofNat _ (ofLeBytes bs % (2 ^ 255 - 19) + 1)

/-- Signatures that name their signer and message. -/
def crypto : Crypto where
  sha256
  sign key bs := (key, sha256 bs)
  verify key bs signature := signature == (key, sha256 bs)

end Sample

structure PhaseCertificate where
  chainId : ChainID
  view : ViewNumber
  block : CryptoHash
  phase : Phase
  signatures : SignatureSet
  deriving DecidableEq

structure TimeoutCertificate where
  chainId : ChainID
  view : ViewNumber
  signatures : SignatureSet
  deriving DecidableEq

instance : Borsh PhaseCertificate :=
  Borsh.ofEquiv (fun pc => (pc.chainId, pc.view, pc.block, pc.phase, pc.signatures))
    (fun (chainId, view, block, phase, signatures) => ⟨chainId, view, block, phase, signatures⟩)
    fun _ => rfl

/-- The bytes a validator signs to vote for a block in a phase. -/
def phaseVoteBytes (chainId : ChainID) (view : ViewNumber) (block : CryptoHash) (phase : Phase) :
    List Byte :=
  leBytes 8 chainId.val ++ leBytes 8 view.val ++ Borsh.beBytes 32 block.val ++ [phase.tag]

/-- The bytes a validator signs to vote for abandoning a view. -/
def timeoutVoteBytes (chainId : ChainID) (view : ViewNumber) : List Byte :=
  leBytes 8 chainId.val ++ leBytes 8 view.val

/-- Check the signatures at their validators' positions and tally up the power of
the validators that signed.  `none` stands for an incorrect signature. -/
def tallySignatures (cr : Crypto) (message : List Byte) :
    List (Option SignatureBytes × VerifyingKey × Power) → Option TotalPower
  | [] => some 0
  | (none, _, _) :: rest => tallySignatures cr message rest
  | (some signature, signer, power) :: rest =>
    if cr.verify signer message signature then
      (tallySignatures cr message rest).map fun total => power.val + total
    else none

/-- Whether the signatures are correct and form a quorum of `vs`. -/
def isCorrectlySigned (cr : Crypto) (message : List Byte) (signatures : SignatureSet)
    (vs : ValidatorSet) : Result Bool :=
  if signatures.length ≠ vs.len then
    return false
  else
    match tallySignatures cr message (signatures.zip vs.validatorsAndPowers) with
    | none => return false
    | some totalPower => do
      let quorum ← vs.quorum
      return decide (quorum ≤ totalPower)

namespace PhaseCertificate

def messageBytes (pc : PhaseCertificate) : List Byte :=
  phaseVoteBytes pc.chainId pc.view pc.block pc.phase

def isCorrectlySigned (cr : Crypto) (pc : PhaseCertificate) (vs : ValidatorSet) : Result Bool :=
  HotStuffRs.isCorrectlySigned cr pc.messageBytes pc.signatures vs

def genesisPc : PhaseCertificate where
  chainId := 0
  view := ViewNumber.init
  block := 0
  phase := .generic
  signatures := []

def isGenesisPc (pc : PhaseCertificate) : Bool := pc == genesisPc

@[simp] theorem isGenesisPc_iff {pc : PhaseCertificate} :
    pc.isGenesisPc = true ↔ pc = genesisPc := by
  simp [isGenesisPc]

def isBlockJustify (pc : PhaseCertificate) : Bool := pc.phase.isGeneric || pc.phase.isDecide

def isNudgeJustify (pc : PhaseCertificate) : Bool :=
  pc.phase.isPrepare || pc.phase.isPrecommit || pc.phase.isCommit

end PhaseCertificate

namespace TimeoutCertificate

def messageBytes (tc : TimeoutCertificate) : List Byte := timeoutVoteBytes tc.chainId tc.view

def isCorrectlySigned (cr : Crypto) (tc : TimeoutCertificate) (vs : ValidatorSet) : Result Bool :=
  HotStuffRs.isCorrectlySigned cr tc.messageBytes tc.signatures vs

end TimeoutCertificate

structure Block where
  height : BlockHeight
  hash : CryptoHash
  justify : PhaseCertificate
  dataHash : CryptoHash
  data : Data
  deriving DecidableEq

namespace Block

/-- The hash of a block's height, justify and data hash.  The `unwrap` panics when
the signature vector is too long to serialize. -/
def hashOf (cr : Crypto) (height : BlockHeight) (justify : PhaseCertificate)
    (dataHash : CryptoHash) : Result CryptoHash := do
  let height ← Result.unwrap (Borsh.encode height)
  let justify ← Result.unwrap (Borsh.encode justify)
  let dataHash ← Result.unwrap (Borsh.encode dataHash)
  return cr.sha256 (height ++ justify ++ dataHash)

/-- `Block::new`, which asserts that the phase of `justify` fits a block. -/
def new (cr : Crypto) (height : BlockHeight) (justify : PhaseCertificate) (dataHash : CryptoHash)
    (data : Data) : Result Block := do
  if !(justify.phase.isGeneric || justify.phase.isDecide) then
    throw .panic
  let hash ← hashOf cr height justify dataHash
  return { height, hash, justify, dataHash, data }

end Block

end HotStuffRs
