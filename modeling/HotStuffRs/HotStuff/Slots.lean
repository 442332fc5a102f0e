import HotStuffRs.HotStuff.Collectors
import HotStuffRs.Types.Signatures

namespace HotStuffRs

/-! ## Slots: the signatures about one topic and their power -/

abbrev Slot := SignatureSet × TotalPower

namespace Slot

variable {cr : Crypto} {vs : ValidatorSet} {slot : Slot}
  {g : VerifyingKey → Option SignatureBytes} {signer : VerifyingKey} {pos : Nat}
  {signature : SignatureBytes} {message : List Byte}

def empty (vs : ValidatorSet) : Slot := (List.replicate vs.len none, 0)

/-- The slot has the signature `g v` at the position of each validator `v`, and the power of
those with one. -/
structure Holds (vs : ValidatorSet) (slot : Slot) (g : VerifyingKey → Option SignatureBytes) :
    Prop where
  signatures : slot.1 = vs.validators.map g
  power : slot.2 = Quorum.weight vs.powerAt (vs.signers g)

theorem holds_empty : Holds vs (empty vs) fun _ => none where
  signatures := by
    rw [empty, ValidatorSet.len, List.map_const']
  power := by
    have hsigners : vs.signers (fun _ => none) = ∅ := by
      apply Finset.filter_false_of_mem
      simp
    rw [hsigners, Quorum.weight_empty]
    rfl

namespace Holds

theorem getElem? (h : Holds vs slot g) (hpos : vs.position signer = some pos) :
    slot.1[pos]? = some (g signer) := by
  rw [h.signatures, List.getElem?_map, ValidatorSet.position_eq_some.mp hpos]
  rfl

theorem signatureAt (h : Holds vs slot g) {v : VerifyingKey} (hv : v ∈ vs.validators) :
    vs.signatureAt slot.1 v = g v := by
  obtain ⟨pos, hget⟩ := List.mem_iff_getElem?.mp hv
  have hpos : vs.position v = some pos := ValidatorSet.position_eq_some.mpr hget
  rw [ValidatorSet.signatureAt, hpos, Option.bind_some, h.getElem? hpos]
  rfl

/-- Filling the empty place of a validator adds its power. -/
theorem set (h : Holds vs slot g) (signature : SignatureBytes)
    (hpos : vs.position signer = some pos) (hg : g signer = none) :
    Holds vs (slot.1.set pos (some signature), slot.2 + vs.powerAt signer)
      (Function.update g signer (some signature)) where
  signatures := by
    have hget : vs.validators[pos]? = some signer := ValidatorSet.position_eq_some.mp hpos
    rw [h.signatures]
    apply List.ext_getElem?
    intro i
    rw [List.getElem?_set, List.getElem?_map, List.getElem?_map, List.length_map]
    by_cases hi : pos = i
    · subst hi
      have hlt : pos < vs.validators.length := (List.getElem?_eq_some_iff.mp hget).1
      rw [if_pos rfl, if_pos hlt, hget, Option.map_some, Function.update_self]
    · rw [if_neg hi]
      cases hv : vs.validators[i]? with
      | none => rfl
      | some v =>
        have hne : v ≠ signer := by
          intro heq
          subst heq
          have hpos' : vs.position v = some i := ValidatorSet.position_eq_some.mpr hv
          rw [hpos] at hpos'
          exact hi (Option.some.inj hpos')
        rw [Option.map_some, Option.map_some, Function.update_of_ne hne]
  power := by
    have hmem : signer ∈ vs.validators :=
      List.mem_of_getElem? (ValidatorSet.position_eq_some.mp hpos)
    have hnot : signer ∉ vs.signers g := by
      rw [ValidatorSet.mem_signers, hg]
      simp
    rw [ValidatorSet.signers_update hmem, Quorum.weight_insert hnot, ← h.power]

/-- A slot of verified signatures with the power of a quorum makes a certificate. -/
theorem isCorrectlySigned (h : Holds vs slot g)
    (hver : ∀ v ∈ vs.validators, ∀ signature, g v = some signature →
      cr.verify v message signature = true) {quorum : TotalPower}
    (hquorum : vs.quorum = .ok quorum) (hle : quorum ≤ slot.2) :
    isCorrectlySigned cr message slot.1 vs = .ok true := by
  have hsigners : vs.signers (vs.signatureAt slot.1) = vs.signers g := by
    apply Finset.filter_congr
    intro v hv
    rw [h.signatureAt (ValidatorSet.mem_members.mp hv)]
  rw [isCorrectlySigned_iff]
  refine ⟨?_, ?_, quorum, hquorum, ?_⟩
  · rw [h.signatures, List.length_map, ValidatorSet.len]
  · intro v hv signature hsignature
    rw [h.signatureAt hv] at hsignature
    exact hver v hv signature hsignature
  · rw [hsigners, ← h.power]
    exact hle

end Holds
end Slot

/-! ## Collectors with slots -/

/-- The chain, view and validator set of a collector. -/
def Collector.config {C Vote Certificate : Type} [Collector C Vote Certificate] (c : C) :
    ChainID × ViewNumber × ValidatorSet :=
  (Collector.chainId c, Collector.view c, Collector.validatorSet c)

/-- Collectors that gather the votes about each topic in a slot of its own.  `store` replaces
a slot, `finish` does what the collector does with the slot of a new certificate. -/
class SlotCollector (C : Type) (Vote Certificate Topic : outParam Type)
    [Collector C Vote Certificate] [DecidableEq Topic] where
  voteChainId : Vote → ChainID
  voteView : Vote → ViewNumber
  voteTopic : Vote → Topic
  voteSignature : Vote → SignatureBytes
  messageBytes : ChainID → ViewNumber → Topic → List Byte
  certificate : ChainID → ViewNumber → Topic → SignatureSet → Certificate
  certificateTopic : Certificate → Topic
  slot : C → Topic → Slot
  store : C → Topic → Slot → C
  finish : C → Topic → Slot → C
  certificateTopic_certificate (chainId : ChainID) (view : ViewNumber) (t : Topic)
    (signatures : SignatureSet) : certificateTopic (certificate chainId view t signatures) = t
  config_new (chainId : ChainID) (view : ViewNumber) (vs : ValidatorSet) :
    Collector.config (Collector.new (C := C) chainId view vs) = (chainId, view, vs)
  config_store (c : C) (t : Topic) (s : Slot) : Collector.config (store c t s) = Collector.config c
  config_finish (c : C) (t : Topic) (s : Slot) :
    Collector.config (finish c t s) = Collector.config c
  slot_new (chainId : ChainID) (view : ViewNumber) (vs : ValidatorSet) (t : Topic) :
    slot (Collector.new chainId view vs) t = Slot.empty vs
  slot_store (c : C) (t : Topic) (s : Slot) : slot (store c t s) = Function.update (slot c) t s
  slot_finish (c : C) (t : Topic) (s : Slot) :
    slot (finish c t s) = Function.update (slot c) t s ∨
      slot (finish c t s) = Function.update (slot c) t (Slot.empty (Collector.validatorSet c))
  collect_eq (c : C) (signer : VerifyingKey) (vote : Vote) :
    Collector.collect c signer vote =
      if Collector.chainId c ≠ voteChainId vote ∨ Collector.view c ≠ voteView vote then
        .ok (none, c)
      else match (Collector.validatorSet c).position signer with
      | none => .ok (none, c)
      | some pos =>
        match (slot c (voteTopic vote)).1[pos]? with
        | none => .error .panic
        | some (some _) => .ok (none, c)
        | some none => do
          let signerPower ← Result.unwrap ((Collector.validatorSet c).power signer)
          let s := ((slot c (voteTopic vote)).1.set pos (some (voteSignature vote)),
            (slot c (voteTopic vote)).2 + signerPower.val)
          let quorum ← (Collector.validatorSet c).quorum
          if quorum ≤ s.2 then
            .ok (some (certificate (Collector.chainId c) (Collector.view c) (voteTopic vote) s.1),
              finish c (voteTopic vote) s)
          else .ok (none, store c (voteTopic vote) s)

namespace PhaseVoteCollector

/-- The slot of a block and phase, empty until the first vote. -/
def slot (c : PhaseVoteCollector) (t : CryptoHash × Phase) : Slot :=
  (c.signatureSets[t]?).getD (Slot.empty c.validatorSet)

def store (c : PhaseVoteCollector) (t : CryptoHash × Phase) (s : Slot) : PhaseVoteCollector :=
  { c with signatureSets := c.signatureSets.insert t s }

/-- Votes after a certificate start from an empty slot. -/
def finish (c : PhaseVoteCollector) (t : CryptoHash × Phase) (_ : Slot) : PhaseVoteCollector :=
  { c with signatureSets := c.signatureSets.erase t }

theorem slot_store (c : PhaseVoteCollector) (t : CryptoHash × Phase) (s : Slot) :
    (c.store t s).slot = Function.update c.slot t s := by
  funext t'
  by_cases h : t' = t
  · subst h
    rw [Function.update_self, slot, store, Std.ExtTreeMap.getElem?_insert_self, Option.getD_some]
  · have hcmp : VoteKey.cmp t t' ≠ .eq := fun he => h (Std.LawfulEqCmp.eq_of_compare he).symm
    rw [Function.update_of_ne h, slot, store, Std.ExtTreeMap.getElem?_insert, if_neg hcmp]
    rfl

theorem slot_finish (c : PhaseVoteCollector) (t : CryptoHash × Phase) (s : Slot) :
    (c.finish t s).slot = Function.update c.slot t (Slot.empty c.validatorSet) := by
  funext t'
  by_cases h : t' = t
  · subst h
    rw [Function.update_self, slot, finish, Std.ExtTreeMap.getElem?_erase_self]
    rfl
  · have hcmp : VoteKey.cmp t t' ≠ .eq := fun he => h (Std.LawfulEqCmp.eq_of_compare he).symm
    rw [Function.update_of_ne h, slot, finish, Std.ExtTreeMap.getElem?_erase, if_neg hcmp]
    rfl

/-- Storing again what a slot holds already changes nothing. -/
theorem store_slot (c : PhaseVoteCollector) (t : CryptoHash × Phase)
    (h : c.slot t ≠ Slot.empty c.validatorSet) : c.store t (c.slot t) = c := by
  have hsome : c.signatureSets[t]? = some (c.slot t) := by
    unfold slot at h ⊢
    cases hget : c.signatureSets[t]? with
    | none => rw [hget] at h; exact absurd rfl h
    | some s => rfl
  have hsame : c.signatureSets.insert t (c.slot t) = c.signatureSets := by
    apply Std.ExtTreeMap.ext_getElem?
    intro t'
    rw [Std.ExtTreeMap.getElem?_insert]
    split
    · rename_i he
      rw [← Std.LawfulEqCmp.eq_of_compare he, hsome]
    · rfl
  rw [store, hsame]

theorem slot_ne_empty {c : PhaseVoteCollector} {t : CryptoHash × Phase} {pos : Nat}
    {signature : SignatureBytes} (h : (c.slot t).1[pos]? = some (some signature)) :
    c.slot t ≠ Slot.empty c.validatorSet := by
  intro hempty
  rw [hempty, Slot.empty, List.getElem?_replicate] at h
  split at h
  · cases h
  · cases h

instance : SlotCollector PhaseVoteCollector PhaseVote PhaseCertificate (CryptoHash × Phase) where
  voteChainId := PhaseVote.chainId
  voteView := PhaseVote.view
  voteTopic vote := (vote.block, vote.phase)
  voteSignature := PhaseVote.signature
  messageBytes chainId view t := phaseVoteBytes chainId view t.1 t.2
  certificate chainId view t signatures := ⟨chainId, view, t.1, t.2, signatures⟩
  certificateTopic pc := (pc.block, pc.phase)
  slot := slot
  store := store
  finish := finish
  certificateTopic_certificate _ _ _ _ := rfl
  config_new _ _ _ := rfl
  config_store _ _ _ := rfl
  config_finish _ _ _ := rfl
  slot_new _ _ _ _ := rfl
  slot_store := slot_store
  slot_finish c t s := .inr (slot_finish c t s)
  collect_eq c signer vote := by
    by_cases hmatch : c.chainId ≠ vote.chainId ∨ c.view ≠ vote.view
    · exact (if_pos hmatch).trans (if_pos hmatch).symm
    · refine (if_neg hmatch).trans (Eq.trans ?_ (if_neg hmatch).symm)
      change (match c.validatorSet.position signer with | none => _ | some pos => _) =
        match c.validatorSet.position signer with | none => _ | some pos => _
      cases c.validatorSet.position signer with
      | none => rfl
      | some pos =>
        change (match (c.slot (vote.block, vote.phase)).1[pos]? with
            | none => _ | some (some _) => _ | some none => _) =
          match (c.slot (vote.block, vote.phase)).1[pos]? with
            | none => _ | some (some _) => _ | some none => _
        cases hget : (c.slot (vote.block, vote.phase)).1[pos]? with
        | none => rfl
        | some o =>
          cases o with
          | none => rfl
          | some signature =>
            exact congrArg (fun c => Except.ok (none, c)) (c.store_slot _ (slot_ne_empty hget))

end PhaseVoteCollector

namespace TimeoutVoteCollector

def slot (c : TimeoutVoteCollector) (_ : Unit) : Slot := (c.signatureSet, c.signatureSetPower)

def store (c : TimeoutVoteCollector) (_ : Unit) (s : Slot) : TimeoutVoteCollector :=
  { c with signatureSet := s.1, signatureSetPower := s.2 }

theorem slot_store (c : TimeoutVoteCollector) (t : Unit) (s : Slot) :
    (c.store t s).slot = Function.update c.slot t s := by
  funext t'
  rw [show t' = t from rfl, Function.update_self]
  rfl

/-- The votes of a timeout certificate stay in the collector. -/
instance : SlotCollector TimeoutVoteCollector TimeoutVote TimeoutCertificate Unit where
  voteChainId := TimeoutVote.chainId
  voteView := TimeoutVote.view
  voteTopic _ := ()
  voteSignature := TimeoutVote.signature
  messageBytes chainId view _ := timeoutVoteBytes chainId view
  certificate chainId view _ signatures := ⟨chainId, view, signatures⟩
  certificateTopic _ := ()
  slot := slot
  store := store
  finish := store
  certificateTopic_certificate _ _ _ _ := rfl
  config_new _ _ _ := rfl
  config_store _ _ _ := rfl
  config_finish _ _ _ := rfl
  slot_new _ _ _ _ := rfl
  slot_store := slot_store
  slot_finish c t s := .inl (slot_store c t s)
  collect_eq _ _ _ := rfl

end TimeoutVoteCollector

end HotStuffRs
