import HotStuffRs.HotStuff.Pair

namespace HotStuffRs

namespace ActiveCollectorPair

variable {C Vote Certificate Topic : Type} [DecidableEq Topic] [Collector C Vote Certificate]
  [SlotCollector C Vote Certificate Topic]

/-- The collector has the vote of `validator` about `t` with this signature. -/
def HasVote (c : C) (t : Topic) (validator : VerifyingKey) (signature : SignatureBytes) : Prop :=
  (Collector.validatorSet c).signatureAt (SlotCollector.slot c t).1 validator = some signature

/-- Every vote of the first collector is in the second. -/
def Keeps (c d : C) : Prop :=
  ∀ t validator signature, HasVote c t validator signature → HasVote d t validator signature

/-- What an update with `vss` has to bring about: the collectors are those of the active
validator sets, the same update again does nothing, and the votes for a set that is now the
previous one are kept. -/
structure Follows (pair : ActiveCollectorPair C) (vss : ValidatorSetState) : Prop where
  committed : Collector.validatorSet (pair.updateValidatorSets vss).1.cvsCollector =
    vss.committedValidatorSet
  active : (pair.updateValidatorSets vss).1.pvsCollector.isSome = true ↔ vss.updateDecided = false
  previous : ∀ p, (pair.updateValidatorSets vss).1.pvsCollector = some p →
    Collector.validatorSet p = vss.previousValidatorSet
  again : (pair.updateValidatorSets vss).1.updateValidatorSets vss =
    ((pair.updateValidatorSets vss).1, false)
  kept : vss.previousValidatorSet = Collector.validatorSet pair.cvsCollector →
    ∀ p, (pair.updateValidatorSets vss).1.pvsCollector = some p → Keeps pair.cvsCollector p

/-- The first collector after an update. -/
def newCvs (pair : ActiveCollectorPair C) (vss : ValidatorSetState) : C :=
  if vss.committedValidatorSet ≠ Collector.validatorSet pair.cvsCollector then
    Collector.new (Collector.chainId pair.cvsCollector) (Collector.view pair.cvsCollector)
      vss.committedValidatorSet
  else pair.cvsCollector

section

variable {pair : ActiveCollectorPair C} {vss : ValidatorSetState} {p : C}

include Topic in
theorem validatorSet_new (chainId : ChainID) (view : ViewNumber) (vs : ValidatorSet) :
    Collector.validatorSet (Collector.new chainId view vs : C) = vs :=
  congrArg (fun config => config.2.2) (SlotCollector.config_new (C := C) chainId view vs)

theorem not_hasVote_new {chainId : ChainID} {view : ViewNumber} {vs : ValidatorSet} {t : Topic}
    {validator : VerifyingKey} {signature : SignatureBytes} :
    ¬ HasVote (Collector.new chainId view vs : C) t validator signature := by
  intro h
  have hgathers : SlotCollector.Gathers (Collector.new chainId view vs : C)
      fun (_ : Topic) _ => none := SlotCollector.gathers_new chainId view vs
  by_cases hv : validator ∈ (Collector.validatorSet (Collector.new chainId view vs : C)).validators
  · rw [HasVote, (hgathers t).signatureAt hv] at h
    cases h
  · rw [HasVote, ValidatorSet.signatureAt, ValidatorSet.position_eq_none.mpr hv] at h
    cases h

include Topic in
theorem validatorSet_newCvs :
    Collector.validatorSet (newCvs pair vss) = vss.committedValidatorSet := by
  unfold newCvs
  split
  · exact validatorSet_new _ _ _
  · rename_i h
    exact (not_not.mp h).symm

/-- The second collector after an update that has to have one. -/
def newPvs (pair : ActiveCollectorPair C) (vss : ValidatorSetState) : C :=
  if vss.previousValidatorSet = Collector.validatorSet (newCvs pair vss) then newCvs pair vss
  else Collector.new (Collector.chainId (newCvs pair vss)) (Collector.view (newCvs pair vss))
    vss.previousValidatorSet

include Topic in
theorem config_newCvs :
    Collector.chainId (newCvs pair vss) = Collector.chainId pair.cvsCollector ∧
      Collector.view (newCvs pair vss) = Collector.view pair.cvsCollector := by
  unfold newCvs
  split
  · have hconfig := SlotCollector.config_new (C := C) (Collector.chainId pair.cvsCollector)
      (Collector.view pair.cvsCollector) vss.committedValidatorSet
    exact ⟨congrArg (fun config => config.1) hconfig, congrArg (fun config => config.2.1) hconfig⟩
  · exact ⟨rfl, rfl⟩

include Topic in
theorem updateValidatorSets_eq : pair.updateValidatorSets vss =
    if (vss.updateDecided && pair.pvsCollector.isSome) = true then (⟨newCvs pair vss, none⟩, true)
    else if (pair.pvsCollector.all fun c =>
        vss.previousValidatorSet ≠ Collector.validatorSet c) = true then
      (⟨newCvs pair vss, some (newPvs pair vss)⟩, true)
    else
      (⟨newCvs pair vss, pair.pvsCollector⟩,
        decide (vss.committedValidatorSet ≠ Collector.validatorSet pair.cvsCollector)) := by
  have hconfig : Collector.chainId (newCvs pair vss) = Collector.chainId pair.cvsCollector ∧
      Collector.view (newCvs pair vss) = Collector.view pair.cvsCollector := config_newCvs
  rw [newPvs, hconfig.1, hconfig.2]
  unfold updateValidatorSets newCvs
  by_cases hcvs : vss.committedValidatorSet ≠ Collector.validatorSet pair.cvsCollector
  · simp only [if_pos hcvs]
    rw [decide_eq_true hcvs]
  · simp only [if_neg hcvs]
    rw [decide_eq_false hcvs]

/-- The exact condition under which an update does what it has to: the update of the state is
not decided, and the votes for a set that becomes the previous one are not in a collector that
is replaced before they are looked at. -/
def KeepsUp (pair : ActiveCollectorPair C) (vss : ValidatorSetState) : Prop :=
  vss.updateDecided = false ∧
    (vss.previousValidatorSet = Collector.validatorSet pair.cvsCollector →
      (∃ p, pair.pvsCollector = some p ∧ Collector.validatorSet p = vss.previousValidatorSet ∧
        Keeps pair.cvsCollector p) ∨
      ((∀ p, pair.pvsCollector = some p → Collector.validatorSet p ≠ vss.previousValidatorSet) ∧
        (vss.committedValidatorSet = Collector.validatorSet pair.cvsCollector ∨
          ∀ t validator signature, ¬ HasVote pair.cvsCollector t validator signature)))

include Topic in
theorem validatorSet_newPvs :
    Collector.validatorSet (newPvs pair vss) = vss.previousValidatorSet := by
  unfold newPvs
  split
  · rename_i h
    exact h.symm
  · exact validatorSet_new _ _ _

include Topic in
/-- An update with the same state leaves the first collector alone. -/
theorem newCvs_again (q : Option C) : newCvs ⟨newCvs pair vss, q⟩ vss = newCvs pair vss := by
  have hvs : Collector.validatorSet (newCvs pair vss) = vss.committedValidatorSet :=
    validatorSet_newCvs
  rw [newCvs, if_neg (not_not.mpr hvs.symm)]

include Topic in
theorem update_undecided (pair : ActiveCollectorPair C) (hundecided : vss.updateDecided = false) :
    (pair.updateValidatorSets vss).1 = ⟨newCvs pair vss, some (newPvs pair vss)⟩ ∧
        (∀ p, pair.pvsCollector = some p → Collector.validatorSet p ≠ vss.previousValidatorSet) ∨
      ∃ p, pair.pvsCollector = some p ∧ Collector.validatorSet p = vss.previousValidatorSet ∧
        pair.updateValidatorSets vss = (⟨newCvs pair vss, some p⟩,
          decide (vss.committedValidatorSet ≠ Collector.validatorSet pair.cvsCollector)) := by
  rw [updateValidatorSets_eq, hundecided]
  cases hpvs : pair.pvsCollector with
  | none => exact .inl ⟨rfl, fun p hp => by cases hp⟩
  | some p =>
    by_cases hset : vss.previousValidatorSet = Collector.validatorSet p
    · right
      refine ⟨p, rfl, hset.symm, ?_⟩
      simp [hset]
    · left
      refine ⟨by simp [hset], ?_⟩
      intro p' hp'
      obtain rfl := Option.some.inj hp'
      exact fun h => hset h.symm

include Topic in
/-- The same undecided update again does nothing. -/
theorem update_again (hundecided : vss.updateDecided = false) {p : C}
    (hp : Collector.validatorSet p = vss.previousValidatorSet) :
    (⟨newCvs pair vss, some p⟩ : ActiveCollectorPair C).updateValidatorSets vss =
      (⟨newCvs pair vss, some p⟩, false) := by
  have hvs : Collector.validatorSet (newCvs pair vss) = vss.committedValidatorSet :=
    validatorSet_newCvs
  rw [updateValidatorSets_eq, newCvs_again, hundecided, hvs]
  simp [hp]

/-- A collector that is made from the pair for the previous set has the votes of the first
collector unless that was replaced. -/
theorem keeps_newPvs
    (hset : vss.previousValidatorSet = Collector.validatorSet pair.cvsCollector) :
    Keeps pair.cvsCollector (newPvs pair vss) ↔
      vss.committedValidatorSet = Collector.validatorSet pair.cvsCollector ∨
        ∀ t validator signature, ¬ HasVote pair.cvsCollector t validator signature := by
  by_cases hcvs : vss.committedValidatorSet = Collector.validatorSet pair.cvsCollector
  · have hnew : newCvs pair vss = pair.cvsCollector := if_neg (not_not.mpr hcvs)
    have hpvs : newPvs pair vss = pair.cvsCollector := by
      rw [newPvs, hnew, if_pos hset]
    rw [hpvs]
    exact ⟨fun _ => .inl hcvs, fun _ _ _ _ hvote => hvote⟩
  · have hvs : Collector.validatorSet (newCvs pair vss) = vss.committedValidatorSet :=
      validatorSet_newCvs
    have hne : vss.previousValidatorSet ≠ Collector.validatorSet (newCvs pair vss) := by
      rw [hvs, hset]
      exact Ne.symm hcvs
    rw [newPvs, if_neg hne]
    constructor
    · intro hkeeps
      right
      intro t validator signature hvote
      exact not_hasVote_new (hkeeps t validator signature hvote)
    · intro h t validator signature hvote
      exact absurd hvote ((h.resolve_left hcvs) t validator signature)

include Topic in
/-- An undecided update that leaves a collector over the previous set does what it has to as soon
as the votes for this set are kept. -/
theorem follows_iff_keeps (hundecided : vss.updateDecided = false)
    (hupdate : (pair.updateValidatorSets vss).1 = ⟨newCvs pair vss, some p⟩)
    (hp : Collector.validatorSet p = vss.previousValidatorSet) :
    Follows pair vss ↔
      (vss.previousValidatorSet = Collector.validatorSet pair.cvsCollector →
        Keeps pair.cvsCollector p) := by
  constructor
  · intro h hset
    exact h.kept hset p (by rw [hupdate])
  · intro hkeeps
    refine ⟨?_, ?_, ?_, ?_, ?_⟩
    · rw [hupdate]
      exact validatorSet_newCvs
    · rw [hupdate]
      simp [hundecided]
    · intro p' hp'
      rw [hupdate] at hp'
      obtain rfl := Option.some.inj hp'
      exact hp
    · rw [hupdate]
      exact update_again hundecided hp
    · intro hset p' hp'
      rw [hupdate] at hp'
      obtain rfl := Option.some.inj hp'
      exact hkeeps hset

theorem not_follows_decided (hdecided : vss.updateDecided = true) : ¬ Follows pair vss := by
  intro h
  cases hpvs : pair.pvsCollector with
  | none =>
    have hactive := h.active
    rw [updateValidatorSets_eq, hpvs, hdecided] at hactive
    simp at hactive
  | some p =>
    have hupdate : (pair.updateValidatorSets vss).1 = ⟨newCvs pair vss, none⟩ := by
      rw [updateValidatorSets_eq, hpvs, hdecided]
      rfl
    have hagain := h.again
    rw [hupdate, updateValidatorSets_eq, hdecided] at hagain
    simp at hagain

end

/-- An update with a validator set state does what it has to exactly under `KeepsUp`. -/
theorem follows_iff (pair : ActiveCollectorPair C) (vss : ValidatorSetState) :
    Follows pair vss ↔ KeepsUp pair vss := by
  cases hdecided : vss.updateDecided with
  | true =>
    constructor
    · intro h
      exact absurd h (not_follows_decided hdecided)
    · intro h
      rw [h.1] at hdecided
      cases hdecided
  | false =>
    rcases update_undecided pair hdecided with ⟨hupdate, hno⟩ | ⟨p, hpvs, hp, hupdate⟩
    · rw [follows_iff_keeps hdecided hupdate validatorSet_newPvs]
      constructor
      · intro hkeeps
        refine ⟨hdecided, fun hset => .inr ⟨hno, ?_⟩⟩
        exact (keeps_newPvs hset).mp (hkeeps hset)
      · intro h hset
        rcases h.2 hset with ⟨p, hpvs, hp, -⟩ | ⟨-, h⟩
        · exact absurd hp (hno p hpvs)
        · exact (keeps_newPvs hset).mpr h
    · rw [follows_iff_keeps hdecided (congrArg Prod.fst hupdate) hp]
      constructor
      · intro hkeeps
        exact ⟨hdecided, fun hset => .inl ⟨p, hpvs, hp, hkeeps hset⟩⟩
      · intro h hset
        rcases h.2 hset with ⟨p', hpvs', -, hkeeps⟩ | ⟨hno, -⟩
        · obtain rfl := Option.some.inj (hpvs.symm.trans hpvs')
          exact hkeeps
        · exact absurd hp (hno p hpvs)

end ActiveCollectorPair

namespace ActiveCollectorPair

def decidedState : ValidatorSetState :=
  ⟨Sample.fourValidators, Sample.fourValidators, none, true⟩

def decidedPair : ActiveCollectorPair TimeoutVoteCollector := new 7 1 decidedState

/-- The state after the set of validator 1 alone became the previous one. -/
def undecidedState : ValidatorSetState :=
  ⟨Sample.fourValidators, Sample.soleValidator, some 1, false⟩

/-- The collector of validator 1's set with its vote. -/
def votedCollector : TimeoutVoteCollector where
  chainId := 7
  view := 1
  validatorSet := Sample.soleValidator
  signatureSet := [some (Sample.timeoutVote 1).signature]
  signatureSetPower := 1

/-- A repeated update with a decided state makes a second collector, and an update drops the
vote that the first collector had for the set that becomes the previous one. -/
theorem update_does_not_follow :
    decidedPair.pvsCollector.isSome = false ∧
    (decidedPair.updateValidatorSets decidedState).1.pvsCollector.isSome = true ∧
    (decidedPair.updateValidatorSets decidedState).2 = true ∧
    (updateValidatorSets ⟨votedCollector, none⟩ undecidedState).1.pvsCollector.map
      TimeoutVoteCollector.signatureSet = some [none] := by
  decide +kernel

end ActiveCollectorPair

end HotStuffRs
