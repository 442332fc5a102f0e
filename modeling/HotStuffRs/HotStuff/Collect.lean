import HotStuffRs.HotStuff.Slots
import HotStuffRs.Lts.Path

namespace HotStuffRs
namespace SlotCollector

variable {C Vote Certificate Topic : Type} [DecidableEq Topic] [Collector C Vote Certificate]
  [SlotCollector C Vote Certificate Topic]

/-! ## One vote -/

section

variable {c : C} {g : Topic → VerifyingKey → Option SignatureBytes} {signer : VerifyingKey}
  {vote : Vote} {t : Topic} {s : Slot}

/-- The slot of each topic holds the signatures that `g` names. -/
def Gathers (c : C) (g : Topic → VerifyingKey → Option SignatureBytes) : Prop :=
  ∀ t, Slot.Holds (Collector.validatorSet c) (slot c t) (g t)

/-- The vote is about the chain and view of the collector, and from a validator of its set
without a signature about the topic. -/
def Takes (c : C) (g : Topic → VerifyingKey → Option SignatureBytes) (signer : VerifyingKey)
    (vote : Vote) : Prop :=
  Collector.chainId c = voteChainId C vote ∧ Collector.view c = voteView C vote ∧
    signer ∈ (Collector.validatorSet c).validators ∧ g (voteTopic C vote) signer = none

/-- The signatures with that of the vote. -/
def gather (C : Type) {Vote Certificate Topic : Type} [DecidableEq Topic]
    [Collector C Vote Certificate] [SlotCollector C Vote Certificate Topic]
    (g : Topic → VerifyingKey → Option SignatureBytes) (signer : VerifyingKey) (vote : Vote) :
    Topic → VerifyingKey → Option SignatureBytes :=
  Function.update g (voteTopic C vote)
    (Function.update (g (voteTopic C vote)) signer (some (voteSignature C vote)))

theorem collect_of_not_takes (hg : Gathers c g) (h : ¬ Takes c g signer vote) :
    Collector.collect c signer vote = .ok (none, c) := by
  rw [collect_eq]
  by_cases hmatch : Collector.chainId c ≠ voteChainId C vote ∨ Collector.view c ≠ voteView C vote
  · rw [if_pos hmatch]
  · rw [if_neg hmatch]
    cases hpos : (Collector.validatorSet c).position signer with
    | none => rfl
    | some pos =>
      have hmem : signer ∈ (Collector.validatorSet c).validators :=
        List.mem_of_getElem? (ValidatorSet.position_eq_some.mp hpos)
      have hchain : Collector.chainId c = voteChainId C vote := by
        by_contra hne
        exact hmatch (.inl hne)
      have hview : Collector.view c = voteView C vote := by
        by_contra hne
        exact hmatch (.inr hne)
      have hsome : g (voteTopic C vote) signer ≠ none := fun hnone =>
        h ⟨hchain, hview, hmem, hnone⟩
      obtain ⟨signature, hsignature⟩ := Option.ne_none_iff_exists'.mp hsome
      have hget := (hg (voteTopic C vote)).getElem? hpos
      rw [hsignature] at hget
      simp only [hget]

/-- A vote that the collector takes fills a place of its topic's slot, and makes a certificate
if the slot then has the power of a quorum. -/
theorem collect_of_takes (hg : Gathers c g) (h : Takes c g signer vote) :
    ∃ s, Slot.Holds (Collector.validatorSet c) s (gather C g signer vote (voteTopic C vote)) ∧
      Collector.collect c signer vote = (Collector.validatorSet c).quorum >>= fun quorum =>
        if quorum ≤ s.2 then
          .ok (some (certificate C (Collector.chainId c) (Collector.view c) (voteTopic C vote) s.1),
            finish c (voteTopic C vote) s)
        else .ok (none, store c (voteTopic C vote) s) := by
  obtain ⟨hchain, hview, hmem, hnone⟩ := h
  obtain ⟨pos, hget⟩ := List.mem_iff_getElem?.mp hmem
  have hpos : (Collector.validatorSet c).position signer = some pos :=
    ValidatorSet.position_eq_some.mpr hget
  obtain ⟨power, hpower⟩ := ValidatorSet.power_isSome hmem
  have hempty := (hg (voteTopic C vote)).getElem? hpos
  rw [hnone] at hempty
  have hset := (hg (voteTopic C vote)).set (voteSignature C vote) hpos hnone
  rw [ValidatorSet.powerAt, hpower, Option.getD_some] at hset
  refine ⟨((slot c (voteTopic C vote)).1.set pos (some (voteSignature C vote)),
    (slot c (voteTopic C vote)).2 + power.val), ?_, ?_⟩
  · rw [gather, Function.update_self]
    exact hset
  · rw [collect_eq, if_neg (by simp [hchain, hview]), hpos]
    simp only [hempty, hpower, Result.unwrap_some, Result.ok_bind]

/-- The vote finds the place of its signer empty, and `s` is the topic's slot with it. -/
def Adds (c : C) (signer : VerifyingKey) (vote : Vote) (s : Slot) : Prop :=
  Collector.chainId c = voteChainId C vote ∧ Collector.view c = voteView C vote ∧
    ∃ pos power, (Collector.validatorSet c).position signer = some pos ∧
      (slot c (voteTopic C vote)).1[pos]? = some none ∧
      (Collector.validatorSet c).power signer = some power ∧
      s = ((slot c (voteTopic C vote)).1.set pos (some (voteSignature C vote)),
        (slot c (voteTopic C vote)).2 + power.val)

/-- What `collect` can do when it returns. -/
theorem collect_cases {cert : Option Certificate} {c' : C}
    (h : Collector.collect c signer vote = .ok (cert, c')) :
    ((∀ s, ¬ Adds c signer vote s) ∧ cert = none ∧ c' = c) ∨
    ∃ s quorum, Adds c signer vote s ∧ (Collector.validatorSet c).quorum = .ok quorum ∧
      (quorum ≤ s.2 ∧ cert.isSome = true ∧ c' = finish c (voteTopic C vote) s ∨
        ¬ quorum ≤ s.2 ∧ cert = none ∧ c' = store c (voteTopic C vote) s) := by
  rw [collect_eq] at h
  by_cases hmatch : Collector.chainId c ≠ voteChainId C vote ∨ Collector.view c ≠ voteView C vote
  · rw [if_pos hmatch] at h
    obtain ⟨rfl, rfl⟩ := Prod.mk.inj (Except.ok.inj h)
    refine .inl ⟨?_, rfl, rfl⟩
    intro s hadds
    exact hmatch.elim (fun hne => hne hadds.1) fun hne => hne hadds.2.1
  · obtain ⟨hchain, hview⟩ := not_or.mp hmatch
    rw [if_neg hmatch] at h
    cases hpos : (Collector.validatorSet c).position signer with
    | none =>
      rw [hpos] at h
      obtain ⟨rfl, rfl⟩ := Prod.mk.inj (Except.ok.inj h)
      refine .inl ⟨?_, rfl, rfl⟩
      intro s hadds
      obtain ⟨-, -, pos, power, hpos', -⟩ := hadds
      cases hpos.symm.trans hpos'
    | some pos =>
      simp only [hpos] at h
      cases hget : (slot c (voteTopic C vote)).1[pos]? with
      | none =>
        simp only [hget] at h
        cases h
      | some o =>
        cases o with
        | some signature =>
          simp only [hget] at h
          obtain ⟨rfl, rfl⟩ := Prod.mk.inj (Except.ok.inj h)
          refine .inl ⟨?_, rfl, rfl⟩
          intro s hadds
          obtain ⟨-, -, pos', power, hpos', hget', -⟩ := hadds
          obtain rfl := Option.some.inj (hpos.symm.trans hpos')
          cases hget.symm.trans hget'
        | none =>
          simp only [hget] at h
          obtain ⟨power, hpower, h⟩ := Result.bind_eq_ok.mp h
          obtain ⟨quorum, hquorum, h⟩ := Result.bind_eq_ok.mp h
          have hpower' : (Collector.validatorSet c).power signer = some power := by
            cases hp : (Collector.validatorSet c).power signer with
            | none =>
              rw [hp] at hpower
              cases hpower
            | some p =>
              rw [hp] at hpower
              exact congrArg some (Except.ok.inj hpower)
          refine .inr ⟨_, quorum, ⟨not_not.mp hchain, not_not.mp hview, pos, power, hpos, hget,
            hpower', rfl⟩, hquorum, ?_⟩
          by_cases hle : quorum ≤ (slot c (voteTopic C vote)).2 + power.val
          · rw [if_pos hle] at h
            obtain ⟨rfl, rfl⟩ := Prod.mk.inj (Except.ok.inj h)
            exact .inl ⟨hle, rfl, rfl⟩
          · rw [if_neg hle] at h
            obtain ⟨rfl, rfl⟩ := Prod.mk.inj (Except.ok.inj h)
            exact .inr ⟨hle, rfl, rfl⟩

theorem gathers_new (chainId : ChainID) (view : ViewNumber) (vs : ValidatorSet) :
    Gathers (Collector.new chainId view vs : C) fun _ _ => none := by
  intro t
  have hvs : Collector.validatorSet (Collector.new chainId view vs : C) = vs :=
    congrArg (fun config => config.2.2) (config_new (C := C) chainId view vs)
  rw [slot_new, hvs]
  exact Slot.holds_empty

theorem validatorSet_store : Collector.validatorSet (store c t s) = Collector.validatorSet c :=
  congrArg (fun config => config.2.2) (config_store c t s)

theorem validatorSet_finish : Collector.validatorSet (finish c t s) = Collector.validatorSet c :=
  congrArg (fun config => config.2.2) (config_finish c t s)

theorem holds_update {vs : ValidatorSet} {slots : Topic → Slot}
    (hg : ∀ t, Slot.Holds vs (slots t) (g t)) {gt : VerifyingKey → Option SignatureBytes}
    (hs : Slot.Holds vs s gt) (t' : Topic) :
    Slot.Holds vs (Function.update slots t s t') (Function.update g t gt t') := by
  by_cases h : t' = t
  · subst h
    rw [Function.update_self, Function.update_self]
    exact hs
  · rw [Function.update_of_ne h, Function.update_of_ne h]
    exact hg t'

theorem Gathers.store (hg : Gathers c g) {gt : VerifyingKey → Option SignatureBytes}
    (hs : Slot.Holds (Collector.validatorSet c) s gt) :
    Gathers (store c t s) (Function.update g t gt) := by
  intro t'
  rw [validatorSet_store, slot_store]
  exact holds_update hg hs t'

theorem Gathers.finish (hg : Gathers c g) {gt : VerifyingKey → Option SignatureBytes}
    (hs : Slot.Holds (Collector.validatorSet c) s gt) :
    Gathers (finish c t s) (Function.update g t gt) ∨
      Gathers (SlotCollector.finish c t s) (Function.update g t fun _ => none) := by
  rcases slot_finish c t s with h | h
  · left
    intro t'
    rw [validatorSet_finish, h]
    exact holds_update hg hs t'
  · right
    intro t'
    rw [validatorSet_finish, h]
    exact holds_update hg Slot.holds_empty t'

end

/-! ## Sequences of votes -/

/-- A vote that was collected, with what `collect` returned. -/
structure Collection (Vote Certificate : Type) where
  signer : VerifyingKey
  vote : Vote
  certificate : Option Certificate

def CollectStep (c : C) (e : Collection Vote Certificate) (c' : C) : Prop :=
  Collector.collect c e.signer e.vote = .ok (e.certificate, c')

variable {log : List (Collection Vote Certificate)} {e : Collection Vote Certificate}
  {chainId : ChainID} {view : ViewNumber} {vs : ValidatorSet} {t : Topic} {c c' : C}
  {g : Topic → VerifyingKey → Option SignatureBytes} {cr : Crypto}

/-- Whether the vote is about `t` in the given chain and view. -/
def About (C : Type) {Vote Certificate Topic : Type} [DecidableEq Topic]
    [Collector C Vote Certificate] [SlotCollector C Vote Certificate Topic] (chainId : ChainID)
    (view : ViewNumber) (t : Topic) (vote : Vote) : Prop :=
  chainId = voteChainId C vote ∧ view = voteView C vote ∧ voteTopic C vote = t

instance (vote : Vote) : Decidable (About C chainId view t vote) := instDecidableAnd

/-- The validators who voted for `t`. -/
def voters (C : Type) {Vote Certificate Topic : Type} [DecidableEq Topic]
    [Collector C Vote Certificate] [SlotCollector C Vote Certificate Topic] (chainId : ChainID)
    (view : ViewNumber) (t : Topic) (log : List (Collection Vote Certificate)) :
    Finset VerifyingKey :=
  ((log.filter fun e => About C chainId view t e.vote).map Collection.signer).toFinset

/-- Whether a certificate for `t` was returned. -/
def Certified (C : Type) {Vote Certificate Topic : Type} [DecidableEq Topic]
    [Collector C Vote Certificate] [SlotCollector C Vote Certificate Topic] (t : Topic)
    (log : List (Collection Vote Certificate)) : Prop :=
  ∃ e ∈ log, ∃ certificate, e.certificate = some certificate ∧ certificateTopic C certificate = t

theorem voters_snoc :
    voters C chainId view t (log ++ [e]) =
      if About C chainId view t e.vote then insert e.signer (voters C chainId view t log)
      else voters C chainId view t log := by
  unfold voters
  rw [List.filter_append, List.map_append, List.toFinset_append]
  by_cases h : About C chainId view t e.vote
  · rw [if_pos h, List.filter_cons_of_pos (by simpa using h)]
    rw [Finset.union_comm]
    rfl
  · rw [if_neg h, List.filter_cons_of_neg (by simpa using h)]
    exact Finset.union_empty _

theorem voters_subset_snoc :
    voters C chainId view t log ⊆ voters C chainId view t (log ++ [e]) := by
  rw [voters_snoc]
  split
  · exact Finset.subset_insert _ _
  · exact Finset.Subset.refl _

theorem certified_snoc :
    Certified C t (log ++ [e]) ↔ Certified C t log ∨
      ∃ certificate, e.certificate = some certificate ∧ certificateTopic C certificate = t := by
  simp only [Certified, List.mem_append, List.mem_singleton, or_and_right, exists_or,
    exists_eq_left]

theorem powerOf_mono {voters voters' : Finset VerifyingKey} (h : voters ⊆ voters') :
    vs.powerOf voters ≤ vs.powerOf voters' :=
  Quorum.weight_mono (Finset.inter_subset_inter_left h)

/-- The certificate is about the vote's topic and passes the check. -/
def Proves (C : Type) {Vote Certificate Topic : Type} [DecidableEq Topic]
    [Collector C Vote Certificate] [SlotCollector C Vote Certificate Topic] (cr : Crypto)
    (chainId : ChainID) (view : ViewNumber) (vs : ValidatorSet) (vote : Vote)
    (cert : Certificate) : Prop :=
  ∃ signatures, cert = certificate C chainId view (voteTopic C vote) signatures ∧
    isCorrectlySigned cr (messageBytes C chainId view (voteTopic C vote)) signatures vs = .ok true

/-- Whether the vote is signed by its signer. -/
def Correct (C : Type) {Vote Certificate Topic : Type} [DecidableEq Topic]
    [Collector C Vote Certificate] [SlotCollector C Vote Certificate Topic] (cr : Crypto)
    (e : Collection Vote Certificate) : Prop :=
  cr.verify e.signer
    (messageBytes C (voteChainId C e.vote) (voteView C e.vote) (voteTopic C e.vote))
    (voteSignature C e.vote) = true

/-- What the collector holds after the votes of `log`. -/
structure Tallied (cr : Crypto) (chainId : ChainID) (view : ViewNumber) (vs : ValidatorSet)
    (log : List (Collection Vote Certificate)) (c : C)
    (g : Topic → VerifyingKey → Option SignatureBytes) : Prop where
  config : Collector.config c = (chainId, view, vs)
  gathers : Gathers c g
  verified : ∀ t v signature, g t v = some signature →
    cr.verify v (messageBytes C chainId view t) signature = true
  signers : ∀ t, ¬ Certified C t log →
    vs.signers (g t) = vs.members ∩ voters C chainId view t log
  certified : ∀ t quorum, vs.quorum = .ok quorum →
    (Certified C t log ↔ quorum ≤ vs.powerOf (voters C chainId view t log))

theorem tallied_new :
    Tallied cr chainId view vs [] (Collector.new chainId view vs : C) fun _ _ => none where
  config := config_new chainId view vs
  gathers := gathers_new chainId view vs
  verified _ _ _ h := by cases h
  signers t _ := by
    have hempty : vs.signers (fun _ => none) = ∅ := Finset.filter_false_of_mem (by simp)
    rw [hempty]
    exact (Finset.inter_empty _).symm
  certified t quorum hquorum := by
    obtain ⟨-, rfl⟩ := ValidatorSet.quorum_eq_ok.mp hquorum
    have hzero : vs.powerOf (voters C chainId view t []) = 0 := by
      rw [ValidatorSet.powerOf]
      exact (congrArg _ (Finset.inter_empty _)).trans Quorum.weight_empty
    rw [hzero]
    constructor
    · intro h
      obtain ⟨e, he, -⟩ := h
      cases he
    · intro h
      exact absurd h (Nat.not_le.mpr (Quorum.threshold_pos _))

namespace Tallied

theorem chainId_eq (h : Tallied cr chainId view vs log c g) : Collector.chainId c = chainId :=
  congrArg (fun config => config.1) h.config

theorem view_eq (h : Tallied cr chainId view vs log c g) : Collector.view c = view :=
  congrArg (fun config => config.2.1) h.config

theorem validatorSet_eq (h : Tallied cr chainId view vs log c g) :
    Collector.validatorSet c = vs :=
  congrArg (fun config => config.2.2) h.config

/-- A topic that was certified stays so, and its voters stay a quorum: only the topics
without a certificate have to be looked at. -/
theorem certified_iff (h : Tallied cr chainId view vs log c g) {quorum : TotalPower}
    (hquorum : vs.quorum = .ok quorum)
    (hnew : ¬ Certified C t log →
      ((∃ certificate, e.certificate = some certificate ∧ certificateTopic C certificate = t) ↔
        quorum ≤ vs.powerOf (voters C chainId view t (log ++ [e])))) :
    Certified C t (log ++ [e]) ↔
      quorum ≤ vs.powerOf (voters C chainId view t (log ++ [e])) := by
  rw [certified_snoc]
  by_cases hcert : Certified C t log
  · have hle := (h.certified t quorum hquorum).mp hcert
    have hmono : vs.powerOf (voters C chainId view t log) ≤
        vs.powerOf (voters C chainId view t (log ++ [e])) := powerOf_mono voters_subset_snoc
    exact ⟨fun _ => le_trans hle hmono, fun _ => .inl hcert⟩
  · rw [← hnew hcert]
    exact ⟨fun h => h.resolve_left hcert, .inr⟩

/-- A vote that the collector does not take is from a validator whose vote it has, if that
validator counts at all. -/
theorem inter_voters (h : Tallied cr chainId view vs log c g)
    (hcert : ¬ Certified C t log)
    (htake : About C chainId view t e.vote → ¬ Takes c g e.signer e.vote) :
    vs.members ∩ voters C chainId view t (log ++ [e]) =
      vs.members ∩ voters C chainId view t log := by
  rw [voters_snoc]
  by_cases habout : About C chainId view t e.vote
  · rw [if_pos habout]
    by_cases hmem : e.signer ∈ vs.members
    · have hin : e.signer ∈ vs.members ∩ voters C chainId view t log := by
        rw [← h.signers t hcert, ValidatorSet.mem_signers]
        refine ⟨ValidatorSet.mem_members.mp hmem, ?_⟩
        by_contra hnone
        refine htake habout ⟨?_, ?_, ?_, ?_⟩
        · rw [h.chainId_eq]
          exact habout.1
        · rw [h.view_eq]
          exact habout.2.1
        · rw [h.validatorSet_eq]
          exact ValidatorSet.mem_members.mp hmem
        · rw [habout.2.2]
          simpa using hnone
      rw [Finset.insert_eq_of_mem (Finset.mem_inter.mp hin).2]
    · exact Finset.inter_insert_of_notMem hmem
  · rw [if_neg habout]

theorem ignore (h : Tallied cr chainId view vs log c g) (htake : ¬ Takes c g e.signer e.vote)
    (hnone : e.certificate = none) : Tallied cr chainId view vs (log ++ [e]) c g where
  config := h.config
  gathers := h.gathers
  verified := h.verified
  signers t hcert := by
    have hcert' : ¬ Certified C t log := fun hc => hcert (certified_snoc.mpr (.inl hc))
    rw [h.signers t hcert', h.inter_voters hcert' fun _ => htake]
  certified t quorum hquorum := by
    apply h.certified_iff hquorum
    intro hcert
    have hpower : vs.powerOf (voters C chainId view t (log ++ [e])) =
        vs.powerOf (voters C chainId view t log) := by
      rw [ValidatorSet.powerOf, h.inter_voters hcert fun _ => htake]
      rfl
    rw [hpower, ← h.certified t quorum hquorum, hnone]
    simp [hcert]

theorem about_iff (h : Tallied cr chainId view vs log c g) (htake : Takes c g e.signer e.vote) :
    About C chainId view t e.vote ↔ voteTopic C e.vote = t := by
  obtain ⟨hchain, hview, -, -⟩ := htake
  rw [h.chainId_eq] at hchain
  rw [h.view_eq] at hview
  exact ⟨fun habout => habout.2.2, fun ht => ⟨hchain, hview, ht⟩⟩

/-- Until its certificate, a topic's slot has the signatures of all its voters. -/
theorem signers_gather (h : Tallied cr chainId view vs log c g)
    (htake : Takes c g e.signer e.vote) (hcert : ¬ Certified C t log) :
    vs.signers (gather C g e.signer e.vote t) =
      vs.members ∩ voters C chainId view t (log ++ [e]) := by
  have hmem : e.signer ∈ vs.validators := by
    rw [← h.validatorSet_eq]
    exact htake.2.2.1
  by_cases ht : voteTopic C e.vote = t
  · subst ht
    rw [voters_snoc, if_pos ((h.about_iff htake).mpr rfl), gather, Function.update_self,
      ValidatorSet.signers_update hmem, h.signers _ hcert,
      Finset.inter_insert_of_mem (ValidatorSet.mem_members.mpr hmem)]
  · rw [gather, Function.update_of_ne (Ne.symm ht), h.signers t hcert]
    exact (h.inter_voters hcert fun habout => absurd habout.2.2 ht).symm

/-- Votes that bring a topic to a quorum are those that the collector takes into a slot with
the power of a quorum. -/
theorem quorum_iff (h : Tallied cr chainId view vs log c g) (htake : Takes c g e.signer e.vote)
    {s : Slot} (hs : Slot.Holds vs s (gather C g e.signer e.vote (voteTopic C e.vote)))
    {quorum : TotalPower} (hquorum : vs.quorum = .ok quorum) (hcert : ¬ Certified C t log) :
    quorum ≤ vs.powerOf (voters C chainId view t (log ++ [e])) ↔
      voteTopic C e.vote = t ∧ quorum ≤ s.2 := by
  by_cases ht : voteTopic C e.vote = t
  · subst ht
    rw [hs.power, h.signers_gather htake hcert]
    exact ⟨fun hle => ⟨rfl, hle⟩, fun hle => hle.2⟩
  · have hpower : vs.powerOf (voters C chainId view t (log ++ [e])) =
        vs.powerOf (voters C chainId view t log) := by
      rw [ValidatorSet.powerOf, h.inter_voters hcert fun habout => absurd habout.2.2 ht]
      rfl
    rw [hpower, ← h.certified t quorum hquorum]
    exact ⟨fun hc => absurd hc hcert, fun hc => absurd hc.1 ht⟩

theorem verified_gather (h : Tallied cr chainId view vs log c g)
    (htake : Takes c g e.signer e.vote)
    (hvote : cr.verify e.signer
      (messageBytes C (voteChainId C e.vote) (voteView C e.vote) (voteTopic C e.vote))
      (voteSignature C e.vote) = true) (t : Topic) (v : VerifyingKey) (signature : SignatureBytes)
    (hget : gather C g e.signer e.vote t v = some signature) :
    cr.verify v (messageBytes C chainId view t) signature = true := by
  obtain ⟨hchain, hview, -, -⟩ := htake
  rw [h.chainId_eq] at hchain
  rw [h.view_eq] at hview
  by_cases ht : t = voteTopic C e.vote
  · subst ht
    rw [gather, Function.update_self] at hget
    by_cases hv : v = e.signer
    · subst hv
      rw [Function.update_self] at hget
      rw [hchain, hview, ← Option.some.inj hget]
      exact hvote
    · rw [Function.update_of_ne hv] at hget
      exact h.verified _ _ _ hget
  · rw [gather, Function.update_of_ne ht] at hget
    exact h.verified _ _ _ hget

section

variable {s : Slot} {quorum : TotalPower}

/-- The votes with one that fills the place of its signer but makes no certificate. -/
theorem add (h : Tallied cr chainId view vs log c g) (htake : Takes c g e.signer e.vote)
    (hvote : Correct C cr e)
    (hs : Slot.Holds vs s (gather C g e.signer e.vote (voteTopic C e.vote)))
    (hquorum : vs.quorum = .ok quorum) (hlt : ¬ quorum ≤ s.2) (hnone : e.certificate = none) :
    Tallied cr chainId view vs (log ++ [e]) (store c (voteTopic C e.vote) s)
      (gather C g e.signer e.vote) where
  config := (config_store c _ s).trans h.config
  gathers := by
    rw [← h.validatorSet_eq] at hs
    have hstore := h.gathers.store (t := voteTopic C e.vote) hs
    rwa [gather, Function.update_self] at hstore
  verified := h.verified_gather htake hvote
  signers t hcert := by
    have hcert' : ¬ Certified C t log := fun hc => hcert (certified_snoc.mpr (.inl hc))
    exact h.signers_gather htake hcert'
  certified t quorum' hquorum' := by
    obtain rfl : quorum = quorum' := Except.ok.inj (hquorum.symm.trans hquorum')
    apply h.certified_iff hquorum
    intro hcert
    rw [h.quorum_iff htake hs hquorum hcert, hnone]
    simp [hlt]

/-- The votes with one that makes a certificate for its topic. -/
theorem certify (h : Tallied cr chainId view vs log c g) (htake : Takes c g e.signer e.vote)
    (hvote : Correct C cr e)
    (hs : Slot.Holds vs s (gather C g e.signer e.vote (voteTopic C e.vote)))
    (hquorum : vs.quorum = .ok quorum) (hle : quorum ≤ s.2)
    (hsome : e.certificate = some (certificate C chainId view (voteTopic C e.vote) s.1)) :
    ∃ g', Tallied cr chainId view vs (log ++ [e]) (finish c (voteTopic C e.vote) s) g' := by
  have hcertified : ∀ t, Certified C t (log ++ [e]) ↔ Certified C t log ∨ voteTopic C e.vote = t := by
    intro t
    rw [certified_snoc, hsome]
    simp [certificateTopic_certificate]
  have htallied : ∀ g', Gathers (finish c (voteTopic C e.vote) s) g' →
      (∀ t ≠ voteTopic C e.vote, g' t = gather C g e.signer e.vote t) →
      (∀ v signature, g' (voteTopic C e.vote) v = some signature →
        gather C g e.signer e.vote (voteTopic C e.vote) v = some signature) →
      Tallied cr chainId view vs (log ++ [e]) (finish c (voteTopic C e.vote) s) g' := by
    intro g' hg' hother hself
    refine ⟨(config_finish c _ s).trans h.config, hg', ?_, ?_, ?_⟩
    · intro t v signature hget
      apply h.verified_gather htake hvote
      by_cases ht : t = voteTopic C e.vote
      · subst ht
        exact hself v signature hget
      · rw [← hother t ht]
        exact hget
    · intro t hcert
      rw [hcertified] at hcert
      rw [hother t fun ht => hcert (.inr ht.symm)]
      exact h.signers_gather htake fun hc => hcert (.inl hc)
    · intro t quorum' hquorum'
      obtain rfl : quorum = quorum' := Except.ok.inj (hquorum.symm.trans hquorum')
      apply h.certified_iff hquorum
      intro hcert
      rw [h.quorum_iff htake hs hquorum hcert, hsome]
      simp [certificateTopic_certificate, hle]
  rw [← h.validatorSet_eq] at hs
  rcases h.gathers.finish (t := voteTopic C e.vote) hs with hg' | hg'
  · refine ⟨_, htallied _ hg' ?_ ?_⟩
    · intro t ht
      rw [gather, Function.update_of_ne ht, Function.update_of_ne ht]
    · intro v signature hget
      rwa [Function.update_self] at hget
  · refine ⟨_, htallied _ hg' ?_ ?_⟩
    · intro t ht
      rw [gather, Function.update_of_ne ht, Function.update_of_ne ht]
    · intro v signature hget
      rw [Function.update_self] at hget
      cases hget

end

theorem step (h : Tallied cr chainId view vs log c g) (hvote : Correct C cr e)
    (hcollect : CollectStep c e c') :
    (∃ g', Tallied cr chainId view vs (log ++ [e]) c' g') ∧
      ∀ cert, e.certificate = some cert → Proves C cr chainId view vs e.vote cert := by
  by_cases htake : Takes c g e.signer e.vote
  · obtain ⟨s, hs, heq⟩ := collect_of_takes h.gathers htake
    rw [CollectStep, heq, h.chainId_eq, h.view_eq, h.validatorSet_eq] at hcollect
    rw [h.validatorSet_eq] at hs
    obtain ⟨quorum, hquorum, hresult⟩ := Result.bind_eq_ok.mp hcollect
    by_cases hle : quorum ≤ s.2
    · rw [if_pos hle] at hresult
      obtain ⟨hsome, rfl⟩ := Prod.mk.inj (Except.ok.inj hresult)
      refine ⟨h.certify htake hvote hs hquorum hle hsome.symm, ?_⟩
      intro cert hcert
      rw [← hsome] at hcert
      refine ⟨s.1, (Option.some.inj hcert).symm, ?_⟩
      exact hs.isCorrectlySigned (fun v _ signature hget => h.verified_gather htake hvote _ v
        signature hget) hquorum hle
    · rw [if_neg hle] at hresult
      obtain ⟨hnone, rfl⟩ := Prod.mk.inj (Except.ok.inj hresult)
      refine ⟨⟨_, h.add htake hvote hs hquorum hle hnone.symm⟩, ?_⟩
      intro cert hcert
      rw [← hnone] at hcert
      cases hcert
  · rw [CollectStep, collect_of_not_takes h.gathers htake] at hcollect
    obtain ⟨hnone, rfl⟩ := Prod.mk.inj (Except.ok.inj hcollect)
    refine ⟨⟨_, h.ignore htake hnone.symm⟩, ?_⟩
    intro cert hcert
    rw [← hnone] at hcert
    cases hcert

end Tallied

/-! ## Runs of a collector -/

/-- The collectors that a new collector becomes over some votes. -/
abbrev Collects (c : C) (log : List (Collection Vote Certificate)) (c' : C) : Prop :=
  Lts.Path CollectStep c log c'

theorem Collects.tallied (h : Collects (Collector.new chainId view vs : C) log c)
    (hvotes : ∀ e ∈ log, Correct C cr e) :
    (∃ g, Tallied cr chainId view vs log c g) ∧
      ∀ e ∈ log, ∀ cert, e.certificate = some cert → Proves C cr chainId view vs e.vote cert := by
  revert hvotes
  refine Lts.Path.history (P := fun log c => (∀ e ∈ log, Correct C cr e) →
    (∃ g, Tallied cr chainId view vs log c g) ∧ ∀ e ∈ log, ∀ cert, e.certificate = some cert →
      Proves C cr chainId view vs e.vote cert) h ?_ ?_
  · intro _
    exact ⟨⟨_, tallied_new⟩, fun e he => by cases he⟩
  · intro log c e c' _ ih hstep hvotes
    obtain ⟨⟨g, hg⟩, hproves⟩ := ih fun e' he' => hvotes e' (List.mem_append_left _ he')
    obtain ⟨hg', hprove⟩ := hg.step (hvotes e (by simp)) hstep
    refine ⟨hg', ?_⟩
    intro e' he'
    rcases List.mem_append.mp he' with he' | he'
    · exact hproves e' he'
    · rw [List.mem_singleton.mp he']
      exact hprove

/-- The first certificate for `t` comes with the first vote that makes its voters a quorum. -/
theorem Collects.first_certificate (h : Collects (Collector.new chainId view vs : C) log c)
    (hvotes : ∀ e ∈ log, Correct C cr e) {quorum : TotalPower} (hquorum : vs.quorum = .ok quorum)
    {pre post : List (Collection Vote Certificate)} (hsplit : log = pre ++ e :: post) :
    ((∃ cert, e.certificate = some cert ∧ certificateTopic C cert = t) ∧ ¬ Certified C t pre) ↔
      quorum ≤ vs.powerOf (voters C chainId view t (pre ++ [e])) ∧
      vs.powerOf (voters C chainId view t pre) < quorum := by
  have hcons : log = (pre ++ [e]) ++ post := by rw [hsplit, List.append_assoc]; rfl
  rw [hcons] at h
  obtain ⟨c₂, h₂, -⟩ := Lts.Path.append_iff.mp h
  obtain ⟨c₁, h₁, -⟩ := Lts.Path.append_iff.mp h₂
  have hmem : ∀ e' ∈ pre ++ [e], Correct C cr e' := by
    intro e' he'
    apply hvotes
    rw [hcons]
    exact List.mem_append_left _ he'
  obtain ⟨⟨g₁, hg₁⟩, -⟩ := Collects.tallied h₁ fun e' he' => hmem e' (List.mem_append_left _ he')
  obtain ⟨⟨g₂, hg₂⟩, -⟩ := Collects.tallied h₂ hmem
  have hbefore := hg₁.certified t quorum hquorum
  have hafter := hg₂.certified t quorum hquorum
  rw [certified_snoc] at hafter
  rw [← hafter, ← not_le, ← hbefore]
  constructor
  · intro hfirst
    exact ⟨.inr hfirst.1, hfirst.2⟩
  · intro hfirst
    exact ⟨hfirst.1.resolve_left hfirst.2, hfirst.2⟩

/-- A scheme in which every signature verifies. -/
def acceptAll : Crypto where
  sha256 _ := 0
  sign _ _ := (0, 0)
  verify _ _ _ := true

include Topic in
/-- Up to the documented bound on the total power, every sequence of votes is collected. -/
theorem exists_collects (hmax : vs.totalPower * 2 < 2 ^ 128)
    (votes : List (VerifyingKey × Vote)) :
    ∃ log c, (log.map fun e : Collection Vote Certificate => (e.signer, e.vote)) = votes ∧
      Collects (Collector.new chainId view vs : C) log c := by
  induction votes using List.reverseRecOn with
  | nil => exact ⟨[], _, rfl, .nil⟩
  | append_singleton votes v ih =>
    obtain ⟨log, c, hlog, hrun⟩ := ih
    -- A scheme that accepts every signature makes `tallied` apply to any votes.
    have htallied : ∃ g : Topic → VerifyingKey → Option SignatureBytes,
        Tallied acceptAll chainId view vs log c g :=
      (Collects.tallied hrun fun e _ => show Correct C acceptAll e from rfl).1
    obtain ⟨g, hg⟩ := htallied
    have hcollect : ∃ cert c', Collector.collect c v.1 v.2 = .ok (cert, c') := by
      by_cases htake : Takes c g v.1 v.2
      · obtain ⟨s, -, heq⟩ := collect_of_takes hg.gathers htake
        have hquorum := ValidatorSet.quorum_eq_ok.mpr ⟨hmax, rfl⟩
        rw [hg.validatorSet_eq, hquorum, Result.ok_bind] at heq
        split at heq
        · exact ⟨_, _, heq⟩
        · exact ⟨_, _, heq⟩
      · exact ⟨_, _, collect_of_not_takes hg.gathers htake⟩
    obtain ⟨cert, c', hc'⟩ := hcollect
    have hstep : CollectStep c ⟨v.1, v.2, cert⟩ c' := hc'
    refine ⟨log ++ [⟨v.1, v.2, cert⟩], c', ?_, hrun.snoc hstep⟩
    rw [List.map_append, hlog]
    rfl

end SlotCollector

/-! ## The two collectors -/

open SlotCollector in
/-- Every certificate of a vote collector passes the check, and the first one for a block and
phase, or for the view, comes with the vote that brings its voters to a quorum.  Up to the
documented bound on the total power no sequence of votes makes a collector panic. -/
theorem vote_collectors_sound_complete (cr : Crypto) (chainId : ChainID) (view : ViewNumber)
    (vs : ValidatorSet) :
    ((∀ log (c : PhaseVoteCollector), Collects (PhaseVoteCollector.new chainId view vs) log c →
        (∀ e ∈ log, e.vote.isCorrect cr e.signer = true) →
        (∀ e ∈ log, ∀ pc : PhaseCertificate, e.certificate = some pc →
          pc.isCorrectlySigned cr vs = .ok true) ∧
        ∀ quorum, vs.quorum = .ok quorum → ∀ block phase before e after,
          log = before ++ e :: after →
          (((∃ pc, e.certificate = some pc ∧ (pc.block, pc.phase) = (block, phase)) ∧
              ¬ ∃ e' ∈ before, ∃ pc, e'.certificate = some pc ∧
                (pc.block, pc.phase) = (block, phase)) ↔
            quorum ≤ vs.powerOf
              (voters PhaseVoteCollector chainId view (block, phase) (before ++ [e])) ∧
            vs.powerOf (voters PhaseVoteCollector chainId view (block, phase) before) < quorum)) ∧
      (vs.totalPower * 2 < 2 ^ 128 → ∀ votes : List (VerifyingKey × PhaseVote), ∃ log c,
        (log.map fun e => (e.signer, e.vote)) = votes ∧
          Collects (PhaseVoteCollector.new chainId view vs) log c)) ∧
    (∀ log (c : TimeoutVoteCollector), Collects (TimeoutVoteCollector.new chainId view vs) log c →
        (∀ e ∈ log, e.vote.isCorrect cr e.signer = true) →
        (∀ e ∈ log, ∀ tc : TimeoutCertificate, e.certificate = some tc →
          tc.isCorrectlySigned cr vs = .ok true) ∧
        ∀ quorum, vs.quorum = .ok quorum → ∀ before e after, log = before ++ e :: after →
          ((e.certificate.isSome = true ∧ ¬ ∃ e' ∈ before, e'.certificate.isSome = true) ↔
            quorum ≤ vs.powerOf (voters TimeoutVoteCollector chainId view () (before ++ [e])) ∧
            vs.powerOf (voters TimeoutVoteCollector chainId view () before) < quorum)) ∧
      (vs.totalPower * 2 < 2 ^ 128 → ∀ votes : List (VerifyingKey × TimeoutVote), ∃ log c,
        (log.map fun e => (e.signer, e.vote)) = votes ∧
          Collects (TimeoutVoteCollector.new chainId view vs) log c) := by
  refine ⟨⟨?_, fun hmax votes => exists_collects hmax votes⟩, ?_,
    fun hmax votes => exists_collects hmax votes⟩
  · intro log c hrun hvotes
    refine ⟨?_, ?_⟩
    · intro e he pc hpc
      obtain ⟨signatures, rfl, hsigned⟩ := (Collects.tallied hrun hvotes).2 e he pc hpc
      exact hsigned
    · intro quorum hquorum block phase before e after hsplit
      exact Collects.first_certificate hrun hvotes hquorum hsplit
  · intro log c hrun hvotes
    refine ⟨?_, ?_⟩
    · intro e he tc htc
      obtain ⟨signatures, rfl, hsigned⟩ := (Collects.tallied hrun hvotes).2 e he tc htc
      exact hsigned
    · intro quorum hquorum before e after hsplit
      rw [← Collects.first_certificate hrun hvotes hquorum hsplit (t := ())]
      simp only [Certified, Option.isSome_iff_exists, and_true]

namespace Sample

def timeoutVote (validator : VerifyingKey) : TimeoutVote :=
  ⟨7, 1, crypto.sign validator (timeoutVoteBytes 7 1), none⟩

theorem isCorrect_timeoutVote (validator : VerifyingKey) :
    (timeoutVote validator).isCorrect crypto validator = true :=
  beq_self_eq_true _

end Sample

open SlotCollector in
/-- Of four validators with the same power, the votes of three make a certificate and those
of two do not. -/
theorem vote_collectors_sound_complete_threeOfFour :
    ∃ (c : TimeoutVoteCollector) (e₁ e₂ e₃ : Collection TimeoutVote TimeoutCertificate),
      Collects (TimeoutVoteCollector.new 7 1 Sample.fourValidators) [e₁, e₂, e₃] c ∧
      e₁.certificate = none ∧ e₂.certificate = none ∧
      ∃ tc, e₃.certificate = some tc ∧
        tc.isCorrectlySigned Sample.crypto Sample.fourValidators = .ok true := by
  obtain ⟨-, hcollect, htotal⟩ := vote_collectors_sound_complete Sample.crypto 7 1 Sample.fourValidators
  obtain ⟨log, c, hlog, hrun⟩ := htotal (by decide +kernel)
    [(1, Sample.timeoutVote 1), (2, Sample.timeoutVote 2), (3, Sample.timeoutVote 3)]
  obtain ⟨e₁, log, rfl, h₁, hlog⟩ := List.map_eq_cons_iff.mp hlog
  obtain ⟨e₂, log, rfl, h₂, hlog⟩ := List.map_eq_cons_iff.mp hlog
  obtain ⟨e₃, log, rfl, h₃, hlog⟩ := List.map_eq_cons_iff.mp hlog
  obtain rfl := List.map_eq_nil_iff.mp hlog
  obtain ⟨s₁, v₁, t₁⟩ := e₁
  obtain ⟨s₂, v₂, t₂⟩ := e₂
  obtain ⟨s₃, v₃, t₃⟩ := e₃
  obtain ⟨rfl, rfl⟩ := Prod.mk.inj h₁
  obtain ⟨rfl, rfl⟩ := Prod.mk.inj h₂
  obtain ⟨rfl, rfl⟩ := Prod.mk.inj h₃
  obtain ⟨hsound, hfirst⟩ := hcollect _ _ hrun (by simp [Sample.isCorrect_timeoutVote])
  have hquorum : Sample.fourValidators.quorum = .ok 3 := by decide +kernel
  have hthree : 3 ≤ Sample.fourValidators.powerOf {1, 2, 3} := by decide +kernel
  have htwo : Sample.fourValidators.powerOf {1, 2} < 3 := by decide +kernel
  obtain ⟨hsome, hnone⟩ := (hfirst 3 hquorum [_, _] _ [] rfl).mpr ⟨hthree, htwo⟩
  obtain ⟨tc, htc⟩ := Option.isSome_iff_exists.mp hsome
  refine ⟨c, _, _, _, hrun, ?_, ?_, tc, htc, hsound _ (by simp) tc htc⟩
  · by_contra hne
    exact hnone ⟨_, by simp, Option.isSome_iff_ne_none.mpr hne⟩
  · by_contra hne
    exact hnone ⟨⟨2, Sample.timeoutVote 2, t₂⟩, by simp, Option.isSome_iff_ne_none.mpr hne⟩

end HotStuffRs
