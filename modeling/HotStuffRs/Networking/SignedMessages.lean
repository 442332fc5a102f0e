import HotStuffRs.Networking.Messages
import HotStuffRs.Types.Signatures

namespace HotStuffRs

/-! ## Signed messages -/

/-- The types that implement `SignedMessage`. -/
inductive SignedMessage
  | phaseVote (vote : PhaseVote)
  | timeoutVote (vote : TimeoutVote)
  | advertiseBlock (advertiseBlock : AdvertiseBlock)
  deriving DecidableEq

/-- The kind of a signed message with the fields that it signs. -/
inductive Statement
  | phaseVote (chainId : ChainID) (view : ViewNumber) (block : CryptoHash) (phase : Phase)
  | timeoutVote (chainId : ChainID) (view : ViewNumber)
  | advertiseBlock (chainId : ChainID) (highestCommittedBlockHeight : BlockHeight)
  deriving DecidableEq

namespace SignedMessage

def messageBytes : SignedMessage → List Byte
  | phaseVote vote => vote.messageBytes
  | timeoutVote vote => vote.messageBytes
  | advertiseBlock m => m.messageBytes

def signatureBytes : SignedMessage → SignatureBytes
  | phaseVote vote => vote.signature
  | timeoutVote vote => vote.signature
  | advertiseBlock m => m.signature

def isCorrect (cr : Crypto) (m : SignedMessage) (verifyingKey : VerifyingKey) : Bool :=
  cr.verify verifyingKey m.messageBytes m.signatureBytes

/-- What the signer of the message states. -/
def statement : SignedMessage → Statement
  | phaseVote vote => .phaseVote vote.chainId vote.view vote.block vote.phase
  | timeoutVote vote => .timeoutVote vote.chainId vote.view
  | advertiseBlock m => .advertiseBlock m.chainId m.highestCommittedBlockHeight

end SignedMessage

namespace Statement

/-- The bytes that a statement is signed as. -/
def bytes : Statement → List Byte
  | phaseVote chainId view block phase => phaseVoteBytes chainId view block phase
  | timeoutVote chainId view => timeoutVoteBytes chainId view
  | advertiseBlock chainId height => timeoutVoteBytes chainId height

/-- A vote for leaving the view whose number is the height that is advertised. -/
def Confused : Statement → Statement → Prop
  | timeoutVote chainId view, advertiseBlock chainId' height => chainId = chainId' ∧ view = height
  | advertiseBlock chainId height, timeoutVote chainId' view => chainId = chainId' ∧ view = height
  | _, _ => False

instance : DecidableRel Confused
  | phaseVote .., _ => isFalse id
  | timeoutVote .., phaseVote .. => isFalse id
  | timeoutVote .., timeoutVote .. => isFalse id
  | timeoutVote chainId view, advertiseBlock chainId' height =>
    inferInstanceAs (Decidable (chainId = chainId' ∧ view = height))
  | advertiseBlock .., phaseVote .. => isFalse id
  | advertiseBlock chainId height, timeoutVote chainId' view =>
    inferInstanceAs (Decidable (chainId = chainId' ∧ view = height))
  | advertiseBlock .., advertiseBlock .. => isFalse id

theorem Confused.ne {s s' : Statement} (h : Confused s s') : s ≠ s' := by
  intro heq
  subst heq
  cases s <;> exact h

theorem Confused.bytes_eq {s s' : Statement} (h : Confused s s') : s.bytes = s'.bytes := by
  cases s <;> cases s' <;> first | exact h.elim | obtain ⟨rfl, rfl⟩ := h; rfl

/-- Statements are signed as the same bytes only if they are equal or confused. -/
theorem eq_or_confused {s s' : Statement} (h : s.bytes = s'.bytes) : s = s' ∨ Confused s s' := by
  cases s with
  | phaseVote chainId view block phase =>
    cases s' with
    | phaseVote chainId' view' block' phase' =>
      obtain ⟨rfl, rfl, rfl, rfl⟩ := phaseVoteBytes_inj h
      exact .inl rfl
    | timeoutVote chainId' view' => exact (phaseVoteBytes_ne h).elim
    | advertiseBlock chainId' height' => exact (phaseVoteBytes_ne h).elim
  | timeoutVote chainId view =>
    cases s' with
    | phaseVote chainId' view' block' phase' => exact (phaseVoteBytes_ne h.symm).elim
    | timeoutVote chainId' view' =>
      obtain ⟨rfl, rfl⟩ := timeoutVoteBytes_inj h
      exact .inl rfl
    | advertiseBlock chainId' height' => exact .inr (timeoutVoteBytes_inj h)
  | advertiseBlock chainId height =>
    cases s' with
    | phaseVote chainId' view' block' phase' => exact (phaseVoteBytes_ne h.symm).elim
    | timeoutVote chainId' view' =>
      obtain ⟨hchain, hview⟩ := timeoutVoteBytes_inj h
      exact .inr ⟨hchain, hview.symm⟩
    | advertiseBlock chainId' height' =>
      obtain ⟨rfl, rfl⟩ := timeoutVoteBytes_inj h
      exact .inl rfl

end Statement

namespace SignedMessage

theorem messageBytes_eq (m : SignedMessage) : m.messageBytes = m.statement.bytes := by
  cases m <;> rfl

/-- Two messages with the same bytes state the same thing, except when one votes for leaving
the view whose number is the height that the other advertises. -/
theorem domain_separated_iff (m m' : SignedMessage) :
    (m.messageBytes = m'.messageBytes → m.statement = m'.statement) ↔
      ¬ m.statement.Confused m'.statement := by
  rw [messageBytes_eq, messageBytes_eq]
  constructor
  · intro hsep hconf
    exact hconf.ne (hsep hconf.bytes_eq)
  · intro hconf h
    exact (Statement.eq_or_confused h).resolve_right hconf

/-- The signature with which a validator advertises that it committed up to height 7 is its
correct vote for leaving view 7. -/
theorem advertiseBlock_is_timeoutVote :
    let signature := Sample.crypto.sign 5 (timeoutVoteBytes 1 7)
    let advertised : SignedMessage := advertiseBlock ⟨1, 7, signature⟩
    let voted : SignedMessage := timeoutVote ⟨1, 7, signature, none⟩
    advertised.isCorrect Sample.crypto 5 = true ∧ voted.isCorrect Sample.crypto 5 = true ∧
      advertised.messageBytes = voted.messageBytes ∧ advertised.statement ≠ voted.statement := by
  decide +kernel

end SignedMessage

end HotStuffRs
