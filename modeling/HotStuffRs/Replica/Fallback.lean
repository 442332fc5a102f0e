import HotStuffRs.Pacemaker.Deadlines
import HotStuffRs.Replica.Authentic
import HotStuffRs.Replica.Under
import HotStuffRs.Types.Power

/-
What makes the pacemaker fail on a message.

A view is only entered from a lower one.  The certificate of an `AdvanceView` is never too old
for that, but the timeout certificate that comes with a timeout vote may be.
-/

namespace HotStuffRs

open Kv Kv.Process

/-! ## Collecting never fails -/

/-- There is a place for the signature of each validator. -/
def TimeoutVoteCollector.Shaped (c : TimeoutVoteCollector) : Prop :=
  c.signatureSet.length = c.validatorSet.len

/-- The documented bound on the total power of a validator set. -/
def ValidatorSet.Bounded (vs : ValidatorSet) : Prop := vs.totalPower * 2 < 2 ^ 128

instance (vs : ValidatorSet) : Decidable vs.Bounded := inferInstanceAs (Decidable (_ < _))

theorem ValidatorSet.Bounded.quorum {vs : ValidatorSet} (h : vs.Bounded) :
    ∃ quorum, vs.quorum = .ok quorum :=
  ⟨_, if_pos h⟩

namespace TimeoutVoteCollector

variable {c : TimeoutVoteCollector}

theorem shaped_new (chainId : ChainID) (view : ViewNumber) (vs : ValidatorSet) :
    (new chainId view vs).Shaped :=
  List.length_replicate

/-- A collector with all its places collects every vote, and keeps them. -/
theorem Shaped.collect (h : c.Shaped) (hbounded : c.validatorSet.Bounded) (signer : VerifyingKey)
    (vote : TimeoutVote) : ∃ cert c', c.collect signer vote = .ok (cert, c') := by
  obtain ⟨quorum, hquorum⟩ := hbounded.quorum
  unfold TimeoutVoteCollector.collect
  split
  · exact ⟨_, _, rfl⟩
  · split
    · exact ⟨_, _, rfl⟩
    · rename_i pos hpos
      have hget := ValidatorSet.position_eq_some.mp hpos
      obtain ⟨hlt, -⟩ := List.getElem?_eq_some_iff.mp hget
      have hmem : signer ∈ c.validatorSet.validators := List.mem_of_getElem? hget
      obtain ⟨power, hpower⟩ := ValidatorSet.power_isSome hmem
      have hplace : ∃ place, c.signatureSet[pos]? = some place := by
        rw [List.getElem?_eq_getElem (h ▸ hlt : pos < c.signatureSet.length)]
        exact ⟨_, rfl⟩
      obtain ⟨place, hplace⟩ := hplace
      rw [hplace]
      cases place with
      | some signature => exact ⟨_, _, rfl⟩
      | none =>
        simp only [hpower, Result.unwrap, Result.ok_bind, hquorum]
        split
        · exact ⟨_, _, rfl⟩
        · exact ⟨_, _, rfl⟩

theorem Shaped.of_collect (h : c.Shaped) {signer : VerifyingKey} {vote : TimeoutVote}
    {cert : Option TimeoutCertificate} {c' : TimeoutVoteCollector}
    (hcollect : c.collect signer vote = .ok (cert, c')) : c'.Shaped := by
  unfold TimeoutVoteCollector.collect at hcollect
  split at hcollect
  · cases hcollect
    exact h
  · split at hcollect
    · cases hcollect
      exact h
    · split at hcollect
      · cases hcollect
      · cases hcollect
        exact h
      · simp only [Result.bind_eq_ok] at hcollect
        obtain ⟨power, -, quorum, -, hcollect⟩ := hcollect
        split at hcollect
        · cases hcollect
          exact List.length_set.trans h
        · cases hcollect
          exact List.length_set.trans h

end TimeoutVoteCollector

/-- All collectors of a pair are such as `P` says. -/
def ActiveCollectorPair.Forall {C : Type} (P : C → Prop) (pair : ActiveCollectorPair C) : Prop :=
  P pair.cvsCollector ∧ ∀ c ∈ pair.pvsCollector, P c

namespace ActiveCollectorPair

variable {pair : ActiveCollectorPair TimeoutVoteCollector}

theorem shaped_new (chainId : ChainID) (view : ViewNumber) (vss : ValidatorSetState) :
    (new chainId view vss : ActiveCollectorPair TimeoutVoteCollector).Forall
      TimeoutVoteCollector.Shaped := by
  refine ⟨TimeoutVoteCollector.shaped_new _ _ _, fun c hc => ?_⟩
  unfold new at hc
  dsimp only at hc
  split at hc
  · cases hc
  · cases hc
    exact TimeoutVoteCollector.shaped_new _ _ _

theorem collect_ok (h : pair.Forall TimeoutVoteCollector.Shaped)
    (hbounded : pair.Forall fun c => c.validatorSet.Bounded) (signer : VerifyingKey)
    (vote : TimeoutVote) : ∃ cert pair', pair.collect signer vote = .ok (cert, pair') := by
  obtain ⟨cert, c', hcollect⟩ := h.1.collect hbounded.1 signer vote
  have hcollect' : Collector.collect pair.cvsCollector signer vote = .ok (cert, c') := hcollect
  unfold ActiveCollectorPair.collect
  rw [hcollect', Result.ok_bind]
  cases cert with
  | some cert => exact ⟨_, _, rfl⟩
  | none =>
    cases hpvs : pair.pvsCollector with
    | none => exact ⟨_, _, rfl⟩
    | some q =>
      obtain ⟨cert, q', hq⟩ := (h.2 q hpvs).collect (hbounded.2 q hpvs) signer vote
      have hq' : Collector.collect q signer vote = .ok (cert, q') := hq
      dsimp only
      rw [hq']
      exact ⟨_, _, rfl⟩

theorem shaped_of_collect (h : pair.Forall TimeoutVoteCollector.Shaped) {signer : VerifyingKey}
    {vote : TimeoutVote} {cert : Option TimeoutCertificate}
    {pair' : ActiveCollectorPair TimeoutVoteCollector}
    (hcollect : pair.collect signer vote = .ok (cert, pair')) :
    pair'.Forall TimeoutVoteCollector.Shaped := by
  simp only [ActiveCollectorPair.collect, Result.bind_eq_ok] at hcollect
  obtain ⟨⟨cert₁, c'⟩, hc, hcollect⟩ := hcollect
  have hc' := h.1.of_collect hc
  cases cert₁ with
  | some cert₁ =>
    cases hcollect
    exact ⟨hc', h.2⟩
  | none =>
    cases hpvs : pair.pvsCollector with
    | none =>
      rw [hpvs] at hcollect
      cases hcollect
      refine ⟨hc', fun c hmem => ?_⟩
      cases hmem
    | some q =>
      rw [hpvs] at hcollect
      simp only [Result.bind_eq_ok, Result.pure_eq, Except.ok.injEq, Prod.mk.injEq] at hcollect
      obtain ⟨⟨cert₂, q'⟩, hq, rfl, rfl⟩ := hcollect
      refine ⟨hc', fun c hmem => ?_⟩
      cases hmem
      exact (h.2 q hpvs).of_collect hq

theorem shaped_updateValidatorSets (h : pair.Forall TimeoutVoteCollector.Shaped)
    (vss : ValidatorSetState) :
    (pair.updateValidatorSets vss).1.Forall TimeoutVoteCollector.Shaped := by
  have hnew : ∀ vs : ValidatorSet, TimeoutVoteCollector.Shaped
      (Collector.new (Collector.chainId pair.cvsCollector) (Collector.view pair.cvsCollector) vs) :=
    fun vs => TimeoutVoteCollector.shaped_new _ _ vs
  unfold updateValidatorSets
  dsimp only
  generalize hpair : (if vss.committedValidatorSet ≠ Collector.validatorSet pair.cvsCollector then
    _ else _) = first
  have hfirst : first.1.Forall TimeoutVoteCollector.Shaped := by
    rw [← hpair]
    split
    · exact ⟨hnew _, h.2⟩
    · exact h
  obtain ⟨pair', isUpdated⟩ := first
  dsimp only
  split
  · exact ⟨hfirst.1, fun _ hmem => nomatch hmem⟩
  · split
    · refine ⟨hfirst.1, fun c hmem => ?_⟩
      cases hmem
      split
      · exact hfirst.1
      · exact hnew _
    · exact hfirst

end ActiveCollectorPair

/-! ## Along runs -/

namespace Pacemaker

/-- A pacemaker with all its deadlines, whose collectors have all their places. -/
structure Sound (pm : Pacemaker) : Prop where
  timed : pm.Timed
  shaped : pm.state.timeoutVoteCollectors.Forall TimeoutVoteCollector.Shaped

theorem closed_sound (now : Instant) : Closed now Sound where
  timed _ h := h.timed
  collect _ _ _ _ _ h hcollect :=
    ⟨h.timed.congr rfl rfl rfl, ActiveCollectorPair.shaped_of_collect h.shaped hcollect⟩
  follow _ vss h :=
    ⟨h.timed.congr rfl rfl rfl, ActiveCollectorPair.shaped_updateValidatorSets h.shaped vss⟩
  advanced _ _ h := ⟨h.timed.congr rfl rfl rfl, h.shaped⟩
  extend _ deadline h := ⟨h.timed.extend deadline, h.shaped⟩
  enter _ _ _ _ _ h hlt hstate :=
    ⟨h.timed.entering hlt hstate, ActiveCollectorPair.shaped_new _ _ _⟩

theorem new_sound {config : PacemakerConfiguration} {initView : ViewNumber}
    {vss : ValidatorSetState} {now : Instant} {pm : Pacemaker}
    (h : Pacemaker.new config initView vss now = .ok pm) : pm.Sound where
  timed := new_timed h
  shaped := by
    simp only [Pacemaker.new, PacemakerState.initial, Result.bind_eq_ok, Result.pure_eq,
      Except.ok.injEq] at h
    obtain ⟨state, ⟨timeouts, -, rfl⟩, deadline, -, rfl⟩ := h
    exact ActiveCollectorPair.shaped_new _ _ _

end Pacemaker

namespace Algorithm

variable {cr : Crypto} {P : Pacemaker → Prop} {fuel : Nat} {input : Input}

/-- A handler of a replica that keeps a property of its pacemaker. -/
abbrev KeepsPacemaker {α : Type} (P : Pacemaker → Prop) (m : Handler α) : Prop :=
  Keeps (fun w => P w.mem.pacemaker) (fun w => P w.mem.pacemaker) m

theorem keepsPacemaker_onHotStuff {α : Type} (h : HotStuff.Handler α) :
    KeepsPacemaker P (onHotStuff h) := by
  intro w hw
  rw [onHotStuff, wp_zoom]
  exact wp_mono (wp_true h _) (fun _ _ _ => hw) fun _ _ => hw

theorem keepsPacemaker_onBlockSyncClient {α : Type} (h : BlockSyncClient.Handler α) :
    KeepsPacemaker P (onBlockSyncClient h) := by
  intro w hw
  rw [onBlockSyncClient, wp_zoom]
  exact wp_mono (wp_true h _) (fun _ _ _ => hw) fun _ _ => hw

theorem keepsPacemaker_onPacemaker {α : Type} {h : Pacemaker.Handler α}
    (hh : Pacemaker.Closed.KeepsMem P h) : KeepsPacemaker P (onPacemaker h) := by
  intro w hw
  rw [onPacemaker, wp_zoom]
  exact hh _ hw

theorem keepsPacemaker_beforeReceive (hP : ∀ now, Pacemaker.Closed now P) :
    KeepsPacemaker P (beforeReceive cr fuel input) := by
  refine .bind (keepsPacemaker_onPacemaker (hP input.now).keeps_tick) fun _ => .bind .mem fun _ => ?_
  exact .ite (keepsPacemaker_onHotStuff _) (.pure _)

theorem keepsPacemaker_iterate (hP : ∀ now, Pacemaker.Closed now P) :
    KeepsPacemaker P (iterate cr fuel input) := by
  rw [iterate_eq]
  refine .bind (keepsPacemaker_beforeReceive hP) fun _ => .bind (.bind .mem fun _ => ?_)
    fun _ => keepsPacemaker_onBlockSyncClient _
  cases input.message with
  | none => exact .pure _
  | some message =>
    obtain ⟨origin, msg⟩ := message
    refine .ite ?_ (.pure _)
    cases msg with
    | hotStuff msg => exact keepsPacemaker_onHotStuff _
    | pacemaker msg => exact keepsPacemaker_onPacemaker (hP input.now).keeps_onReceiveMsg
    | blockSyncAdvertise msg => exact keepsPacemaker_onBlockSyncClient _

end Algorithm

variable {cr : Crypto} {config : Configuration} {apps : App → Prop} {s₀ : BlockTree}

/-- What holds of a new pacemaker and is kept by all it does holds along every run. -/
theorem Run.pacemaker {P : Pacemaker → Prop} (hP : ∀ now, Pacemaker.Closed now P)
    (hnew : ∀ initView vss now pm, Pacemaker.new config.pacemaker initView vss now = .ok pm → P pm)
    {log : List Event} {r : Replica} (h : Run cr config apps s₀ log r) : P r.alg.pacemaker := by
  have hstart : ∀ {s : BlockTree} {now : Instant} {r : Replica},
      Replica.start config s now = .ok r → P r.alg.pacemaker := by
    intro s now r hr
    simp only [Replica.start, Algorithm.new, Result.bind_eq_ok, Result.pure_eq,
      Except.ok.injEq] at hr
    obtain ⟨alg, ⟨initView, -, vss, -, pm, hpm, rfl⟩, rfl⟩ := hr
    exact hnew _ _ _ _ hpm
  induction h with
  | start hr => exact hstart hr
  | iterate _ _ hok ih => exact wp_ok (Algorithm.keepsPacemaker_iterate hP _ ih) hok
  | restart _ _ _ hr _ => exact hstart hr

/-- The pacemakers and block trees with which a replica can handle a message: after the tick of
an iteration, once the view of the pacemaker is entered. -/
inductive Receiving (cr : Crypto) (config : Configuration) (apps : App → Prop) (s₀ : BlockTree) :
    Pacemaker → BlockTree → Prop
  | intro {log : List Event} {r : Replica} {fuel : Nat} {input : Input}
    {w : World Algorithm Action Var.Val} (run : Run cr config apps s₀ log r)
    (happ : apps input.app) (hw : Algorithm.beforeReceive cr fuel input r.world = .ok () w) :
    Receiving cr config apps s₀ w.mem.pacemaker w.tree

theorem Receiving.sound {pm : Pacemaker} {tree : BlockTree}
    (h : Receiving cr config apps s₀ pm tree) : pm.Sound := by
  obtain ⟨run, -, hw⟩ := h
  have hsound := run.pacemaker Pacemaker.closed_sound fun _ _ _ _ => Pacemaker.new_sound
  exact wp_ok (Algorithm.keepsPacemaker_beforeReceive Pacemaker.closed_sound _ hsound) hw

/-! ## Reading -/

/-- The validator sets that certificates and votes are checked and counted with have no more
power than documented. -/
structure PowersBounded (pm : Pacemaker) (tree : BlockTree) (vss : ValidatorSetState) : Prop where
  committed : vss.committedValidatorSet.Bounded
  previous : vss.previousValidatorSet.Bounded
  pending : ∀ block updates, tree.kv.validatorSetUpdatesStatus block = .ok (.pending updates) →
    (vss.committedValidatorSet.applyUpdates updates).Bounded
  collectors : pm.state.timeoutVoteCollectors.Forall fun c => c.validatorSet.Bounded

section

variable {pm : Pacemaker} {tree : BlockTree} {vss : ValidatorSetState}

theorem ValidatorSet.Bounded.isCorrectlySigned {vs : ValidatorSet} (h : vs.Bounded) (cr : Crypto)
    (message : List Byte) (signatures : SignatureSet) :
    ∃ correct, HotStuffRs.isCorrectlySigned cr message signatures vs = .ok correct := by
  obtain ⟨quorum, hquorum⟩ := h.quorum
  unfold HotStuffRs.isCorrectlySigned
  split
  · exact ⟨_, rfl⟩
  · split
    · exact ⟨_, rfl⟩
    · rw [hquorum]
      exact ⟨_, rfl⟩

theorem TimeoutCertificate.isCorrect_ok (hvss : tree.kv.validatorSetState = .ok vss)
    (hpowers : PowersBounded pm tree vss) (cr : Crypto) (tc : TimeoutCertificate) :
    ∃ correct, tc.isCorrect cr tree = .ok correct := by
  obtain ⟨committed, hcommitted⟩ := hpowers.committed.isCorrectlySigned cr tc.messageBytes
    tc.signatures
  obtain ⟨previous, hprevious⟩ := hpowers.previous.isCorrectlySigned cr tc.messageBytes
    tc.signatures
  have hcommitted' : tc.isCorrectlySigned cr vss.committedValidatorSet = .ok committed := hcommitted
  have hprevious' : tc.isCorrectlySigned cr vss.previousValidatorSet = .ok previous := hprevious
  unfold TimeoutCertificate.isCorrect
  rw [hvss, Result.ok_bind, hcommitted', hprevious', Result.ok_bind]
  split
  · exact ⟨_, rfl⟩
  · split
    · exact ⟨_, rfl⟩
    · exact ⟨_, rfl⟩

/-- Looking for the validator set to check a certificate with does not fail. -/
theorem PhaseCertificate.signingSet_ok (hvss : tree.kv.validatorSetState = .ok vss)
    (pc : PhaseCertificate) : ∃ signingSet, pc.signingSet tree = .ok signingSet := by
  have hcommitted : tree.kv.committedValidatorSet = .ok vss.committedValidatorSet :=
    kv_committedValidatorSet_eq_ok.mpr (kv_validatorSetState_eq_ok.mp hvss).1
  unfold PhaseCertificate.signingSet
  rw [kv_blockHeight, Result.ok_bind, hvss, Result.ok_bind, kv_validatorSetUpdatesStatus]
  cases tree (.blockHeight pc.block) with
  | none => exact ⟨_, rfl⟩
  | some height =>
    cases vss.updateHeight with
    | none => exact ⟨_, rfl⟩
    | some updateHeight =>
      dsimp only
      split
      · exact ⟨_, rfl⟩
      · split
        · exact ⟨_, rfl⟩
        · generalize (tree (.validatorSetUpdatesStatus pc.block)).getD .none = status
          cases pc.phase with
          | generic => exact ⟨_, rfl⟩
          | decide =>
            cases status with
            | none | committed => exact ⟨_, rfl⟩
            | pending updates =>
              rw [Result.ok_bind, hcommitted, Result.ok_bind]
              exact ⟨_, rfl⟩
          | prepare | precommit | commit =>
            cases status with
            | none | committed | pending => exact ⟨_, rfl⟩

theorem PhaseCertificate.bounded_of_signingSet (hvss : tree.kv.validatorSetState = .ok vss)
    (hpowers : PowersBounded pm tree vss) {pc : PhaseCertificate} {vs : ValidatorSet}
    (h : pc.signingSet tree = .ok (some vs)) : vs.Bounded := by
  obtain ⟨hcommitted, hprevious, -, -⟩ := kv_validatorSetState_eq_ok.mp hvss
  rcases signingSet_cases h with heq | heq | ⟨committed, updates, heq, hpending, rfl⟩
  · rw [hcommitted] at heq
    exact Option.some.inj heq ▸ hpowers.committed
  · rw [hprevious] at heq
    exact Option.some.inj heq ▸ hpowers.previous
  · rw [hcommitted] at heq
    obtain rfl := Option.some.inj heq
    exact hpowers.pending _ _ (BlockTree.pending_iff.mpr hpending)

theorem PhaseCertificate.isCorrect_ok (hvss : tree.kv.validatorSetState = .ok vss)
    (hpowers : PowersBounded pm tree vss) (pc : PhaseCertificate) :
    ∃ correct, pc.isCorrect cr tree = .ok correct := by
  obtain ⟨signingSet, hsigning⟩ := pc.signingSet_ok hvss
  unfold PhaseCertificate.isCorrect
  split
  · exact ⟨_, rfl⟩
  · rw [hsigning, Result.ok_bind]
    cases signingSet with
    | none => exact ⟨_, rfl⟩
    | some vs => exact (bounded_of_signingSet hvss hpowers hsigning).isCorrectlySigned cr _ _

theorem isEpochChangeView_ok {epochLength : U32} (h : epochLength.val ≠ 0) (view : ViewNumber) :
    ∃ isEpochChange, isEpochChangeView view epochLength = .ok isEpochChange :=
  ⟨_, if_neg h⟩

namespace Pacemaker

theorem isHigherTc_ok (tree : BlockTree) (tc : TimeoutCertificate) :
    ∃ isHigher, isHigherTc tree tc = .ok isHigher :=
  ⟨_, rfl⟩

theorem fallbackTc_ok (hvss : tree.kv.validatorSetState = .ok vss)
    (hpowers : PowersBounded pm tree vss) (cr : Crypto) (timeoutVote : TimeoutVote) :
    ∃ tc, fallbackTc cr tree timeoutVote = .ok tc := by
  unfold fallbackTc
  cases timeoutVote.highestTc with
  | none => exact ⟨_, rfl⟩
  | some tc =>
    obtain ⟨correct, hcorrect⟩ := TimeoutCertificate.isCorrect_ok hvss hpowers cr tc
    dsimp only
    rw [hcorrect]
    exact ⟨_, rfl⟩

theorem isValidCertificate_ok (hvss : tree.kv.validatorSetState = .ok vss)
    (hpowers : PowersBounded pm tree vss) (cr : Crypto) {epochLength : U32}
    (hlength : epochLength.val ≠ 0) (certificate : ProgressCertificate) :
    ∃ isValid, isValidCertificate cr tree epochLength certificate = .ok isValid := by
  cases certificate with
  | phaseCertificate pc => exact pc.isCorrect_ok hvss hpowers
  | timeoutCertificate tc =>
    obtain ⟨correct, hcorrect⟩ := TimeoutCertificate.isCorrect_ok hvss hpowers cr tc
    simp only [isValidCertificate, hcorrect, Result.ok_bind]
    split
    · exact isEpochChangeView_ok hlength _
    · exact ⟨_, rfl⟩

/-! ## What a message leads to -/

variable {now : Instant} {w : World Pacemaker Action Var.Val}

/-- There is a view after `view`, and its deadlines can be computed. -/
def HasNext (pm : Pacemaker) (view : ViewNumber) (now : Instant) : Prop :=
  ∃ next, U64.add view 1 = .ok next ∧ pm.Enterable next now

/-- The view after `view` is there, and higher than the current one. -/
def CanFollow (pm : Pacemaker) (view : ViewNumber) (now : Instant) : Prop :=
  pm.viewInfo.view ≤ view ∧ pm.HasNext view now

theorem CanFollow.congr {pm pm' : Pacemaker} (hconfig : pm'.config = pm.config)
    (hview : pm'.viewInfo.view = pm.viewInfo.view) {view : ViewNumber} :
    pm'.CanFollow view now ↔ pm.CanFollow view now := by
  unfold CanFollow HasNext Enterable
  rw [hconfig, hview]

/-- Going to the view after `view` succeeds exactly if it can be followed. -/
theorem Timed.succeeds_follow_iff (h : w.mem.Timed) (view : ViewNumber) :
    Succeeds (lift (U64.add view 1) >>= fun next => Pacemaker.updateView next vss now) w ↔
      w.mem.CanFollow view now := by
  cases hadd : U64.add view 1 with
  | error e =>
    refine iff_of_false (not_succeeds_lift_bind _) fun hfollow => ?_
    obtain ⟨-, next, hnext, -⟩ := hfollow
    rw [hadd] at hnext
    cases hnext
  | ok next =>
    have hval : view.val + 1 = next.val := U64.add_eq_ok.mp hadd
    have hlt : w.mem.viewInfo.view < next ↔ w.mem.viewInfo.view ≤ view := by
      rw [Fin.lt_def, Fin.le_def]
      omega
    have hfollow : w.mem.CanFollow view now ↔
        w.mem.viewInfo.view < next ∧ w.mem.Enterable next now := by
      unfold CanFollow HasNext
      rw [hlt, hadd]
      simp
    rw [succeeds_bind_iff (lift_ok next w), hfollow]
    rcases h.updateView next vss now with
      ⟨heq, hle⟩ | ⟨heq, hnot⟩ | ⟨state, deadline, heq, hless, henterable, -⟩
    · refine iff_of_false (fun ⟨_, _, hok⟩ => ?_) fun hlater => absurd hle (not_le.mpr hlater.1)
      rw [heq] at hok
      cases hok
    · refine iff_of_false (fun ⟨_, _, hok⟩ => ?_) fun hlater => hnot hlater.2
      rw [heq] at hok
      cases hok
    · exact iff_of_true (succeeds_of_ok heq) ⟨hless, henterable⟩

/-- Sending an `AdvanceView` changes neither the view nor the deadlines. -/
theorem advance_run (certificate : ProgressCertificate) (w : World Pacemaker Action Var.Val) :
    ∃ w', advance certificate w = .ok () w' ∧ w'.mem.config = w.mem.config ∧
      w'.mem.viewInfo.view = w.mem.viewInfo.view ∧
      w'.mem.state.timeouts = w.mem.state.timeouts :=
  ⟨_, rfl, rfl, rfl, rfl⟩

theorem updateHighestTc_run (certificate : ProgressCertificate)
    (w : World Pacemaker Action Var.Val) :
    ∃ w', updateHighestTc certificate w = .ok () w' ∧ w'.mem = w.mem := by
  cases certificate with
  | phaseCertificate pc => exact ⟨_, rfl, rfl⟩
  | timeoutCertificate tc =>
    obtain ⟨isHigher, hhigher⟩ := isHigherTc_ok w.tree tc
    unfold updateHighestTc
    dsimp only
    rw [store_bind_run, hhigher, lift_ok_bind_run]
    cases isHigher with
    | false => exact ⟨_, rfl, rfl⟩
    | true => exact ⟨_, rfl, rfl⟩

/-- A vote that completes a certificate does not fail. -/
theorem succeeds_onCollectTc (vss : ValidatorSetState) (newTc : TimeoutCertificate) :
    Succeeds (onCollectTc vss newTc) w := by
  obtain ⟨isHigher, hhigher⟩ := isHigherTc_ok w.tree newTc
  unfold onCollectTc Succeeds
  rw [mem_bind_run, store_bind_run, hhigher, lift_ok_bind_run]
  cases isHigher with
  | false => exact ⟨_, _, rfl⟩
  | true =>
    rw [if_pos rfl]
    by_cases hadvance : (isValidator w.mem.config.me vss ∧ w.mem.state.lastAdvanceView = none) ∨
        w.mem.state.lastAdvanceView.any (· < w.mem.viewInfo.view)
    · rw [if_pos hadvance]
      exact ⟨_, _, rfl⟩
    · rw [if_neg hadvance]
      exact ⟨_, _, rfl⟩

theorem Timed.succeeds_onFallbackTc_iff (h : w.mem.Timed) (vss : ValidatorSetState)
    (tc : TimeoutCertificate) :
    Succeeds (onFallbackTc now vss tc) w ↔
      (isHigherTc w.tree tc = .ok true → w.mem.CanFollow tc.view now) := by
  obtain ⟨isHigher, hhigher⟩ := isHigherTc_ok w.tree tc
  unfold onFallbackTc
  rw [succeeds_bind_iff (store_run w), hhigher, succeeds_bind_iff (lift_ok _ _)]
  cases isHigher with
  | false => exact iff_of_true ⟨_, _, rfl⟩ fun hfalse => nomatch hfalse
  | true =>
    rw [if_pos rfl, succeeds_bind_iff (write_run _ _)]
    exact (Timed.succeeds_follow_iff (w := w.emit _) h tc.view).trans
      ⟨fun hfollow _ => hfollow, fun hfollow => hfollow rfl⟩

/-- A timeout vote is handled exactly if the certificate that it makes the replica fall back on
can be followed. -/
theorem succeeds_onReceiveTimeoutVote_iff (hsound : w.mem.Sound) {vss : ValidatorSetState}
    (hvss : w.tree.kv.validatorSetState = .ok vss) (hpowers : PowersBounded w.mem w.tree vss)
    (timeoutVote : TimeoutVote) (origin : VerifyingKey) :
    Succeeds (onReceiveTimeoutVote cr now timeoutVote origin) w ↔
      ∀ tc, RunInvariant.Pacemaker.FallsBack cr w.mem w.tree timeoutVote origin tc →
        w.mem.CanFollow tc.view now := by
  unfold onReceiveTimeoutVote
  rw [succeeds_bind_iff (mem_run w), succeeds_bind_iff (store_run w), hvss, succeeds_bind_iff (lift_ok _ _)]
  by_cases haccepted : isValidator origin vss ∧ timeoutVote.isCorrect cr origin
  · obtain ⟨isEpochChange, hepoch⟩ :=
      isEpochChangeView_ok hsound.timed.epochLength_ne timeoutVote.view
    obtain ⟨fallback, hfallback⟩ := fallbackTc_ok hvss hpowers cr timeoutVote
    obtain ⟨newTc, collectors, hcollect⟩ :=
      ActiveCollectorPair.collect_ok hsound.shaped hpowers.collectors origin timeoutVote
    rw [if_pos haccepted, hepoch, succeeds_bind_iff (lift_ok _ _)]
    cases isEpochChange with
    | false =>
      refine iff_of_true ⟨_, _, rfl⟩ fun tc hfalls => ?_
      obtain ⟨_, _, -, -, -, hchange, -⟩ := hfalls
      rw [hepoch] at hchange
      cases hchange
    | true =>
      rw [if_pos rfl, hfallback, succeeds_bind_iff (lift_ok _ _), hcollect,
        succeeds_bind_iff (lift_ok _ _), succeeds_bind_iff (setMem_run _ _)]
      cases newTc with
      | some newTc =>
        refine iff_of_true (succeeds_onCollectTc vss newTc) fun tc hfalls => ?_
        obtain ⟨_, _, -, -, -, -, -, hnone, -⟩ := hfalls
        rw [hcollect] at hnone
        cases hnone
      | none =>
        cases fallback with
        | none =>
          refine iff_of_true ⟨_, _, rfl⟩ fun tc hfalls => ?_
          obtain ⟨_, _, -, -, -, -, hsome, -⟩ := hfalls
          rw [hfallback] at hsome
          cases hsome
        | some tc =>
          have htimed : Pacemaker.Timed { w.mem with
              state := { w.mem.state with timeoutVoteCollectors := collectors } } :=
            hsound.timed.congr rfl rfl rfl
          refine (Timed.succeeds_onFallbackTc_iff (w := w.setMem _) htimed vss tc).trans
            ⟨fun hfollow tc' hfalls => ?_, fun hfollow hhigher => ?_⟩
          · obtain ⟨_, _, -, -, -, -, hsome, -, hhigher⟩ := hfalls
            rw [hfallback] at hsome
            cases hsome
            exact hfollow hhigher
          · exact hfollow tc ⟨vss, collectors, hvss, haccepted.1, haccepted.2, hepoch, hfallback,
              hcollect, hhigher⟩
  · rw [if_neg haccepted]
    refine iff_of_true ⟨_, _, rfl⟩ fun tc hfalls => ?_
    obtain ⟨vss', _, hvss', hvalidator, hcorrect, -⟩ := hfalls
    rw [hvss] at hvss'
    cases hvss'
    exact absurd ⟨hvalidator, hcorrect⟩ haccepted

/-- Whether an `AdvanceView` moves the replica: it is by a validator, and valid. -/
def Moves (cr : Crypto) (pm : Pacemaker) (tree : BlockTree) (origin : VerifyingKey)
    (certificate : ProgressCertificate) : Prop :=
  ∃ vss, tree.kv.validatorSetState = .ok vss ∧ isValidator origin vss = true ∧
    isValidCertificate cr tree pm.config.epochLength certificate = .ok true

theorem succeeds_onReceiveAdvanceView_iff (hsound : w.mem.Sound) {vss : ValidatorSetState}
    (hvss : w.tree.kv.validatorSetState = .ok vss) (hpowers : PowersBounded w.mem w.tree vss)
    (advanceView : AdvanceView) (origin : VerifyingKey) :
    Succeeds (onReceiveAdvanceView cr now advanceView origin) w ↔
      (Moves cr w.mem w.tree origin advanceView.progressCertificate →
        w.mem.CanFollow advanceView.progressCertificate.view now) := by
  unfold onReceiveAdvanceView
  rw [succeeds_bind_iff (mem_run w), succeeds_bind_iff (store_run w), hvss, succeeds_bind_iff (lift_ok _ _)]
  by_cases hvalidator : isValidator origin vss
  · obtain ⟨isValid, hvalid⟩ := isValidCertificate_ok hvss hpowers cr
      hsound.timed.epochLength_ne advanceView.progressCertificate
    rw [if_pos hvalidator]
    dsimp only
    rw [hvalid, succeeds_bind_iff (lift_ok _ _)]
    cases isValid with
    | false =>
      refine iff_of_true ⟨_, _, rfl⟩ fun hmoves => ?_
      obtain ⟨_, -, -, htrue⟩ := hmoves
      rw [hvalid] at htrue
      cases htrue
    | true =>
      obtain ⟨w₁, hrun, hmem⟩ := updateHighestTc_run advanceView.progressCertificate w
      have hmoves : Moves cr w.mem w.tree origin advanceView.progressCertificate :=
        ⟨vss, hvss, hvalidator, hvalid⟩
      rw [if_pos rfl, succeeds_bind_iff hrun, forall_prop_of_true hmoves]
      by_cases hadvance : isValidator w.mem.config.me vss ∧ notAdvancedYet w.mem
      · obtain ⟨w₂, hsent, hconfig, hview, htimeouts⟩ :=
          advance_run advanceView.progressCertificate w₁
        rw [hmem] at hconfig hview htimeouts
        rw [if_pos hadvance, succeeds_bind_iff hsent,
          (hsound.timed.congr hconfig hview htimeouts).succeeds_follow_iff]
        exact CanFollow.congr hconfig hview
      · have htimed : w₁.mem.Timed := hmem ▸ hsound.timed
        rw [if_neg hadvance, htimed.succeeds_follow_iff, hmem]
  · rw [if_neg hvalidator]
    refine iff_of_true ⟨_, _, rfl⟩ fun hmoves => ?_
    obtain ⟨vss', hvss', hvalidator', -⟩ := hmoves
    rw [hvss] at hvss'
    cases hvss'
    exact absurd hvalidator' hvalidator

/-- The certificates that `msg` leads to can be followed: the timeout certificate of a vote, and
what an `AdvanceView` brings, which is never older than the current view. -/
structure Followed (cr : Crypto) (pm : Pacemaker) (tree : BlockTree) (now : Instant)
    (origin : VerifyingKey) (msg : PacemakerMessage) : Prop where
  fallback : ∀ timeoutVote tc, msg = .timeoutVote timeoutVote →
    RunInvariant.Pacemaker.FallsBack cr pm tree timeoutVote origin tc →
      pm.viewInfo.view ≤ tc.view ∧ pm.HasNext tc.view now
  advance : ∀ advanceView, msg = .advanceView advanceView →
    Moves cr pm tree origin advanceView.progressCertificate →
      pm.HasNext advanceView.progressCertificate.view now

end Pacemaker

/-- A replica handles a message of the current view or a later one exactly if it can follow what
the message leads to. -/
theorem Receiving.succeeds_onReceiveMsg_iff (h : Receiving cr config apps s₀ w.mem w.tree)
    (hvss : w.tree.kv.validatorSetState = .ok vss) (hpowers : PowersBounded w.mem w.tree vss)
    {msg : PacemakerMessage} (hview : w.mem.viewInfo.view ≤ msg.view) (origin : VerifyingKey) :
    Succeeds (Pacemaker.onReceiveMsg cr now msg origin) w ↔
      Pacemaker.Followed cr w.mem w.tree now origin msg := by
  cases msg with
  | timeoutVote timeoutVote =>
    refine (Pacemaker.succeeds_onReceiveTimeoutVote_iff h.sound hvss hpowers timeoutVote
      origin).trans ⟨fun hfollow => ⟨fun _ tc hmsg => ?_, fun _ hmsg => nomatch hmsg⟩,
        fun hfollow tc => hfollow.fallback timeoutVote tc rfl⟩
    cases hmsg
    exact hfollow tc
  | advanceView advanceView =>
    refine (Pacemaker.succeeds_onReceiveAdvanceView_iff h.sound hvss hpowers advanceView
      origin).trans ⟨fun hfollow => ⟨fun _ _ hmsg => (nomatch hmsg), fun _ hmsg hmoves => ?_⟩,
        fun hfollow hmoves => ⟨hview, hfollow.advance advanceView rfl hmoves⟩⟩
    cases hmsg
    exact (hfollow hmoves).2

end

/-! ## A stale timeout certificate -/

/-- The pacemaker and the block tree with which a replica handles the message of `input` after
`inputs`. -/
def Replica.receivingAfter (cr : Crypto) (config : Configuration) (s₀ : BlockTree) (fuel : Nat)
    (inputs : List Input) (input : Input) : Option (World Pacemaker Action Var.Val) :=
  match Replica.start config s₀ 0 with
  | .ok r => (r.iterateAll cr fuel inputs).bind fun (_, r') =>
    match Algorithm.beforeReceive cr fuel input r'.world with
    | .ok _ w => some { mem := w.mem.pacemaker, base := w.tree, effects := [] }
    | .error _ _ => none
  | .error _ => none

theorem receiving_of_receivingAfter {fuel : Nat} {inputs : List Input} {input : Input}
    {w : World Pacemaker Action Var.Val} (happ : apps input.app)
    (happs : ∀ input ∈ inputs, apps input.app)
    (h : Replica.receivingAfter cr config s₀ fuel inputs input = some w) :
    Receiving cr config apps s₀ w.mem w.tree := by
  unfold Replica.receivingAfter at h
  split at h
  · rename_i r hstart
    obtain ⟨⟨log, r'⟩, hall, h⟩ := Option.bind_eq_some_iff.mp h
    have run := (Run.start hstart).iterateAll happs hall
    dsimp only at h
    split at h
    · rename_i w' hbefore
      cases h
      exact .intro run happ hbefore
    · cases h
  · cases h

namespace Sample

/-- The leader votes for leaving view 10, with the certificate for leaving view 0. -/
def staleVote : PacemakerMessage :=
  .timeoutVote ⟨7, 10, crypto.sign leader (timeoutVoteBytes 7 10), some timeout⟩

/-- The other validator has left view 0 with a phase certificate. -/
def afterFirstView : Option (World Pacemaker Action Var.Val) :=
  Replica.receivingAfter crypto (configuration 1) tree 10
    [advance (.phaseCertificate (certify 0 5 .generic))]
    (input leader (.pacemaker staleVote) (3 * 10 ^ 9))

def failsWith (e : Failure) (result : EStateM.Result Failure (World Pacemaker Action Var.Val) Unit) :
    Bool :=
  match result with
  | .ok _ _ => false
  | .error e' _ => e == e'

end Sample

set_option maxRecDepth 100000 in
theorem afterFirstView_staleVote : Sample.afterFirstView.any fun w =>
    decide (w.mem.viewInfo.view ≤ Sample.staleVote.view) &&
      (Result.ok? w.tree.kv.validatorSetState).isSome &&
      Sample.failsWith (.pacemakerError (.nonIncreasingViewError 1 1))
        (Pacemaker.onReceiveMsg Sample.crypto (3 * 10 ^ 9) Sample.staleVote Sample.leader w) := by
  decide +kernel

/-- The vote of a validator with a genuine certificate takes a replica back to the view that it is
in, which fails. -/
theorem not_succeeds_onReceiveMsg : ∃ w vss,
    Receiving Sample.crypto (Sample.configuration 1) (fun app => app = Sample.app) Sample.tree
      w.mem w.tree ∧
    w.tree.kv.validatorSetState = .ok vss ∧ w.mem.viewInfo.view ≤ Sample.staleVote.view ∧
    ∃ w', Pacemaker.onReceiveMsg Sample.crypto (3 * 10 ^ 9) Sample.staleVote Sample.leader w =
      .error (.pacemakerError (.nonIncreasingViewError 1 1)) w' := by
  obtain ⟨w, hw, hchecks⟩ := (Option.any_eq_true _ _).mp afterFirstView_staleVote
  simp only [Bool.and_eq_true, decide_eq_true_eq] at hchecks
  obtain ⟨⟨hview, hvss⟩, hfails⟩ := hchecks
  have hreceiving : Receiving Sample.crypto (Sample.configuration 1) (fun app => app = Sample.app)
      Sample.tree w.mem w.tree :=
    receiving_of_receivingAfter rfl (by simp [Sample.advance, Sample.input]) hw
  cases hstate : w.tree.kv.validatorSetState with
  | error e =>
    rw [hstate] at hvss
    cases hvss
  | ok vss =>
    refine ⟨w, vss, hreceiving, hstate, hview, ?_⟩
    unfold Sample.failsWith at hfails
    split at hfails
    · cases hfails
    · rename_i e w' heq
      rw [beq_iff_eq] at hfails
      exact ⟨w', hfails ▸ heq⟩

theorem powersBounded_sample {pm : Pacemaker}
    (hcvs : pm.state.timeoutVoteCollectors.cvsCollector.validatorSet = Sample.validators)
    (hpvs : ∀ c ∈ pm.state.timeoutVoteCollectors.pvsCollector, c.validatorSet = Sample.validators) :
    PowersBounded pm Sample.tree ⟨Sample.validators, Sample.validators, none, true⟩ where
  committed := by decide
  previous := by decide
  pending block updates hpending := by
    have hnone : Sample.tree (.validatorSetUpdatesStatus block) = none :=
      BlockTree.initial_of_block? rfl
    rw [kv_validatorSetUpdatesStatus, hnone] at hpending
    cases hpending
  collectors := by
    refine ⟨?_, fun c hc => ?_⟩
    · show ValidatorSet.Bounded _
      rw [hcvs]
      decide
    · show ValidatorSet.Bounded _
      rw [hpvs c hc]
      decide

/-- The certificate for leaving view 0 is followed by a replica that has just started. -/
theorem succeeds_onReceiveMsg_sample : ∃ w : World Pacemaker Action Var.Val,
    Succeeds (Pacemaker.onReceiveMsg Sample.crypto 1
      (.advanceView ⟨.timeoutCertificate Sample.timeout⟩) Sample.leader) w := by
  obtain ⟨w, hw, htree, hconfig, hview, hcvs, hpvs⟩ : ∃ w, Replica.receivingAfter Sample.crypto
      (Sample.configuration 1) Sample.tree 10 []
        { Sample.advance (.timeoutCertificate Sample.timeout) with now := 1 } = some w ∧
      w.tree = Sample.tree ∧ w.mem.config = (Sample.configuration 1).pacemaker ∧
      w.mem.viewInfo.view = 0 ∧
      w.mem.state.timeoutVoteCollectors.cvsCollector.validatorSet = Sample.validators ∧
      ∀ c ∈ w.mem.state.timeoutVoteCollectors.pvsCollector, c.validatorSet = Sample.validators :=
    ⟨_, rfl, rfl, rfl, rfl, rfl, fun c hc => by cases hc; rfl⟩
  have hreceiving : Receiving Sample.crypto (Sample.configuration 1) (fun app => app = Sample.app)
      Sample.tree w.mem w.tree := receiving_of_receivingAfter rfl (by simp) hw
  have hvss : w.tree.kv.validatorSetState =
      .ok ⟨Sample.validators, Sample.validators, none, true⟩ := htree ▸ rfl
  refine ⟨w, (hreceiving.succeeds_onReceiveMsg_iff hvss (htree ▸ powersBounded_sample hcvs hpvs)
    ?_ _).mpr ⟨fun _ _ hmsg => (nomatch hmsg), ?_⟩⟩
  · rw [hview]
    decide
  · intro _ hmsg _
    cases hmsg
    refine ⟨1, rfl, .inr ?_⟩
    rw [hconfig]
    exact ⟨by decide, by decide⟩

end HotStuffRs
