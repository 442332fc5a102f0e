import HotStuffRs.HotStuff.Collect
import HotStuffRs.HotStuff.PairUpdate

/-
Collectors that hold only verified votes, for validator sets of which something is known.
-/

namespace HotStuffRs
namespace ActiveCollectorPair

open SlotCollector

variable {C Vote Certificate Topic : Type} [DecidableEq Topic] [Collector C Vote Certificate]
  [SlotCollector C Vote Certificate Topic]

/-- `c` collects verified votes of chain `chainId` for the validator set `vs`. -/
def SoundFor (cr : Crypto) (chainId : ChainID) (vs : ValidatorSet) (c : C) : Prop :=
  ∃ view votes g, Tallied cr chainId view vs votes c g

/-- Both collectors are sound, for validator sets with `P`. -/
structure Sound (cr : Crypto) (chainId : ChainID) (P : ValidatorSet → Prop)
    (pair : ActiveCollectorPair C) : Prop where
  committed : ∃ vs, P vs ∧ SoundFor cr chainId vs pair.cvsCollector
  previous : ∀ p, pair.pvsCollector = some p → ∃ vs, P vs ∧ SoundFor cr chainId vs p

/-- What a sound collector makes of its votes: a certificate of the chain that is signed by
a quorum of the validator set. -/
def Signed (C : Type) {Vote Certificate Topic : Type} [DecidableEq Topic]
    [Collector C Vote Certificate] [SlotCollector C Vote Certificate Topic] (cr : Crypto)
    (chainId : ChainID) (vs : ValidatorSet) (cert : Certificate) : Prop :=
  ∃ view t signatures, cert = certificate C chainId view t signatures ∧
    isCorrectlySigned cr (messageBytes C chainId view t) signatures vs = .ok true

variable {cr : Crypto} {chainId : ChainID} {P Q : ValidatorSet → Prop} {vs : ValidatorSet}
  {pair pair' : ActiveCollectorPair C} {vss : ValidatorSetState} {c c' : C}

theorem soundFor_new (view : ViewNumber) :
    SoundFor cr chainId vs (Collector.new chainId view vs : C) :=
  ⟨view, [], _, tallied_new⟩

theorem SoundFor.chainId_eq (h : SoundFor cr chainId vs c) : Collector.chainId c = chainId := by
  obtain ⟨view, votes, g, htallied⟩ := h
  exact htallied.chainId_eq

theorem SoundFor.collect (h : SoundFor cr chainId vs c) {signer : VerifyingKey} {vote : Vote}
    {cert : Option Certificate} (hvote : Correct C cr ⟨signer, vote, cert⟩)
    (hcollect : Collector.collect c signer vote = .ok (cert, c')) :
    SoundFor cr chainId vs c' ∧ ∀ cert' ∈ cert, Signed C cr chainId vs cert' := by
  obtain ⟨view, votes, g, htallied⟩ := h
  obtain ⟨⟨g', htallied'⟩, hproves⟩ := htallied.step hvote hcollect
  refine ⟨⟨view, _, g', htallied'⟩, ?_⟩
  intro cert' hcert
  obtain ⟨signatures, heq, hsigned⟩ := hproves cert' hcert
  exact ⟨view, _, signatures, heq, hsigned⟩

theorem Sound.mono (h : Sound cr chainId P pair) (hPQ : ∀ vs, P vs → Q vs) :
    Sound cr chainId Q pair where
  committed := by
    obtain ⟨vs, hvs, hsound⟩ := h.committed
    exact ⟨vs, hPQ vs hvs, hsound⟩
  previous := by
    intro p hp
    obtain ⟨vs, hvs, hsound⟩ := h.previous p hp
    exact ⟨vs, hPQ vs hvs, hsound⟩

theorem sound_new (view : ViewNumber) (hcommitted : P vss.committedValidatorSet)
    (hprevious : P vss.previousValidatorSet) :
    Sound cr chainId P (.new chainId view vss : ActiveCollectorPair C) where
  committed := ⟨_, hcommitted, soundFor_new view⟩
  previous := by
    intro p hp
    unfold ActiveCollectorPair.new at hp
    dsimp only at hp
    split at hp
    · cases hp
    · obtain rfl := Option.some.inj hp
      exact ⟨_, hprevious, soundFor_new view⟩

/-- A correct vote keeps the collectors sound, and the certificate that it completes is
signed by one of their validator sets. -/
theorem Sound.collect (h : Sound cr chainId P pair) {signer : VerifyingKey} {vote : Vote}
    {cert : Option Certificate} (hvote : ∀ cert, Correct C cr ⟨signer, vote, cert⟩)
    (hcollect : pair.collect signer vote = .ok (cert, pair')) :
    Sound cr chainId P pair' ∧ ∀ cert' ∈ cert, ∃ vs, P vs ∧ Signed C cr chainId vs cert' := by
  unfold ActiveCollectorPair.collect at hcollect
  obtain ⟨⟨cert₁, c₁⟩, hfirst, hcollect⟩ := Result.bind_eq_ok.mp hcollect
  obtain ⟨vs, hvs, hsound⟩ := h.committed
  obtain ⟨hsound₁, hsigned₁⟩ := hsound.collect (hvote cert₁) hfirst
  cases cert₁ with
  | some cert₁ =>
    obtain ⟨rfl, rfl⟩ := Prod.mk.inj (Except.ok.inj hcollect)
    refine ⟨⟨⟨vs, hvs, hsound₁⟩, h.previous⟩, ?_⟩
    intro cert' hcert
    exact ⟨vs, hvs, hsigned₁ cert' hcert⟩
  | none =>
    cases hpvs : pair.pvsCollector with
    | none =>
      simp only [hpvs] at hcollect
      obtain ⟨rfl, rfl⟩ := Prod.mk.inj (Except.ok.inj hcollect)
      refine ⟨⟨⟨vs, hvs, hsound₁⟩, ?_⟩, ?_⟩
      · intro p hp
        cases hp
      · intro cert' hcert
        cases hcert
    | some p =>
      simp only [hpvs] at hcollect
      obtain ⟨⟨cert₂, p'⟩, hsecond, hcollect⟩ := Result.bind_eq_ok.mp hcollect
      obtain ⟨rfl, rfl⟩ := Prod.mk.inj (Except.ok.inj hcollect)
      obtain ⟨vs', hvs', hsound'⟩ := h.previous p hpvs
      obtain ⟨hsound₂, hsigned₂⟩ := hsound'.collect (hvote cert₂) hsecond
      refine ⟨⟨⟨vs, hvs, hsound₁⟩, ?_⟩, ?_⟩
      · intro q hq
        obtain rfl := Option.some.inj hq
        exact ⟨vs', hvs', hsound₂⟩
      · intro cert' hcert
        exact ⟨vs', hvs', hsigned₂ cert' hcert⟩

theorem Sound.newCvs (h : Sound cr chainId P pair) (hcommitted : P vss.committedValidatorSet) :
    ∃ vs, P vs ∧ SoundFor cr chainId vs (newCvs pair vss) := by
  obtain ⟨vs, hvs, hsound⟩ := h.committed
  unfold ActiveCollectorPair.newCvs
  split
  · rw [hsound.chainId_eq]
    exact ⟨_, hcommitted, soundFor_new _⟩
  · exact ⟨vs, hvs, hsound⟩

/-- Following the validator set state keeps the collectors sound. -/
theorem Sound.updateValidatorSets (h : Sound cr chainId P pair)
    (hcommitted : P vss.committedValidatorSet) (hprevious : P vss.previousValidatorSet) :
    Sound cr chainId P (pair.updateValidatorSets vss).1 := by
  obtain ⟨vs, hvs, hsound⟩ := h.newCvs hcommitted
  have hnew : ∃ vs, P vs ∧ SoundFor cr chainId vs (newPvs pair vss) := by
    unfold newPvs
    split
    · exact ⟨vs, hvs, hsound⟩
    · rw [hsound.chainId_eq]
      exact ⟨_, hprevious, soundFor_new _⟩
  rw [updateValidatorSets_eq]
  split
  · refine ⟨⟨vs, hvs, hsound⟩, ?_⟩
    intro p hp
    cases hp
  · split
    · refine ⟨⟨vs, hvs, hsound⟩, ?_⟩
      intro p hp
      obtain rfl := Option.some.inj hp
      exact hnew
    · exact ⟨⟨vs, hvs, hsound⟩, h.previous⟩

end ActiveCollectorPair
end HotStuffRs
