import HotStuffRs.Types.Certificates
import Mathlib.Data.Set.Operations

/-
What the hash of a block binds.

SHA-256 is fed the encodings of the height, the justify and the data hash, one after the
other.  The justify takes a number of bytes that depends on its signatures, but where an
encoding ends can be told from its bytes.
-/

namespace HotStuffRs

open Codec

namespace Block

/-- The bytes that the hash of a block is computed of. -/
def hashInput (height : BlockHeight) (justify : PhaseCertificate) (dataHash : CryptoHash) :
    Result (List Byte) := do
  let height ← Result.unwrap (Borsh.encode height)
  let justify ← Result.unwrap (Borsh.encode justify)
  let dataHash ← Result.unwrap (Borsh.encode dataHash)
  return height ++ justify ++ dataHash

/-- No two byte strings that hashes of `blocks` are computed of have the same SHA-256. -/
def CollisionFree (cr : Crypto) (blocks : Set Block) : Prop :=
  Set.InjOn cr.sha256
    {bytes | ∃ b ∈ blocks, hashInput b.height b.justify b.dataHash = .ok bytes}

/-- The hashes that Apps give to the data of `blocks` bind them. -/
def DataBound (blocks : Set Block) : Prop :=
  ∀ b ∈ blocks, ∀ b' ∈ blocks, b.dataHash = b'.dataHash → b.data = b'.data

/-- The blocks agree in all that their hashes are computed of. -/
structure HashedAlike (b b' : Block) : Prop where
  height : b.height = b'.height
  justify : b.justify = b'.justify
  dataHash : b.dataHash = b'.dataHash

variable {cr : Crypto} {height height' : BlockHeight} {justify justify' : PhaseCertificate}
  {dataHash dataHash' : CryptoHash} {bytes : List Byte}

theorem hashInput_eq_ok : hashInput height justify dataHash = .ok bytes ↔
    ∃ heightBytes justifyBytes dataHashBytes, Borsh.encode height = some heightBytes ∧
      Borsh.encode justify = some justifyBytes ∧ Borsh.encode dataHash = some dataHashBytes ∧
      heightBytes ++ (justifyBytes ++ dataHashBytes) = bytes := by
  simp only [hashInput, Result.bind_eq_ok, Result.unwrap_eq_ok, Result.pure_eq, Except.ok.injEq,
    List.append_assoc, exists_and_left]

theorem hashOf_eq_ok {hash : CryptoHash} : hashOf cr height justify dataHash = .ok hash ↔
    ∃ bytes, hashInput height justify dataHash = .ok bytes ∧ cr.sha256 bytes = hash := by
  have hmap : hashOf cr height justify dataHash =
      hashInput height justify dataHash >>= fun bytes => pure (cr.sha256 bytes) := by
    simp only [hashOf, hashInput, bind_assoc, pure_bind]
  simp only [hmap, Result.bind_eq_ok, Result.pure_eq, Except.ok.injEq]

/-- The three parts can be told from the bytes. -/
theorem hashInput_inj (h : hashInput height justify dataHash = .ok bytes)
    (h' : hashInput height' justify' dataHash' = .ok bytes) :
    height = height' ∧ justify = justify' ∧ dataHash = dataHash' := by
  obtain ⟨heightBytes, justifyBytes, dataHashBytes, hheight, hjustify, hdata, rfl⟩ :=
    hashInput_eq_ok.mp h
  obtain ⟨heightBytes', justifyBytes', dataHashBytes', hheight', hjustify', hdata', hbytes⟩ :=
    hashInput_eq_ok.mp h'
  obtain ⟨rfl, hrest⟩ := Borsh.encode_append_inj hheight hheight' hbytes.symm
  obtain ⟨rfl, rfl⟩ := Borsh.encode_append_inj hjustify hjustify' hrest
  exact ⟨rfl, rfl, Borsh.encode_inj hdata hdata'⟩

/-- The bytes that the hash of a block is computed of bind its height, its justify and its data
hash, and so does the hash, as far as SHA-256 has no collisions. -/
theorem hash_binds (cr : Crypto) (b b' : Block) :
    (∀ bytes, hashInput b.height b.justify b.dataHash = .ok bytes →
      hashInput b'.height b'.justify b'.dataHash = .ok bytes → HashedAlike b b') ∧
    ∀ blocks, CollisionFree cr blocks → b ∈ blocks → b' ∈ blocks →
      ∀ hash, hashOf cr b.height b.justify b.dataHash = .ok hash →
        hashOf cr b'.height b'.justify b'.dataHash = .ok hash → HashedAlike b b' := by
  have hinput : ∀ bytes, hashInput b.height b.justify b.dataHash = .ok bytes →
      hashInput b'.height b'.justify b'.dataHash = .ok bytes → HashedAlike b b' := by
    intro bytes h h'
    obtain ⟨hheight, hjustify, hdata⟩ := hashInput_inj h h'
    exact ⟨hheight, hjustify, hdata⟩
  refine ⟨hinput, fun blocks hfree hb hb' hash h h' => ?_⟩
  obtain ⟨bytes, hbytes, rfl⟩ := hashOf_eq_ok.mp h
  obtain ⟨bytes', hbytes', hsame⟩ := hashOf_eq_ok.mp h'
  have heq : bytes = bytes' := hfree ⟨b, hb, hbytes⟩ ⟨b', hb', hbytes'⟩ hsame.symm
  rw [← heq] at hbytes'
  exact hinput bytes hbytes hbytes'

end Block

namespace Sample

/-- A certificate that lacks the first of two signatures. -/
def halfSigned : PhaseCertificate := ⟨7, 1, 5, .generic, [none, some (3, 4)]⟩

end Sample

theorem Block.hash_binds_two_data : ∃ b b' : Block,
    Block.new Sample.crypto 1 Sample.halfSigned 101 [] = .ok b ∧
    Block.new Sample.crypto 1 Sample.halfSigned 101 [[1]] = .ok b' ∧
    b.hash = b'.hash ∧ b.data ≠ b'.data ∧ CollisionFree Sample.crypto {b, b'} ∧
    HashedAlike b b' := by
  obtain ⟨hash, hhash⟩ : ∃ hash, hashOf Sample.crypto 1 Sample.halfSigned 101 = .ok hash :=
    ⟨_, rfl⟩
  have hnew : ∀ data, Block.new Sample.crypto 1 Sample.halfSigned 101 data =
      .ok ⟨1, hash, Sample.halfSigned, 101, data⟩ := by
    intro data
    show (hashOf Sample.crypto 1 Sample.halfSigned 101 >>= fun hash => pure _) = _
    rw [hhash]
    rfl
  have hfree : CollisionFree Sample.crypto
      {⟨1, hash, Sample.halfSigned, 101, []⟩, ⟨1, hash, Sample.halfSigned, 101, [[1]]⟩} := by
    rintro bytes ⟨b, rfl | rfl, h⟩ bytes' ⟨b', rfl | rfl, h'⟩ -
    all_goals exact Except.ok.inj (h.symm.trans h')
  refine ⟨_, _, hnew [], hnew [[1]], rfl, by simp, hfree, ?_⟩
  exact (hash_binds Sample.crypto _ _).2 _ hfree (.inl rfl) (.inr rfl) hash hhash hhash

end HotStuffRs
