import HotStuffRs.HotStuff.LeaderSelection
import HotStuffRs.HotStuff.Sound
import HotStuffRs.Kv.Total
import HotStuffRs.Replica.Agreement
import HotStuffRs.Replica.Sturdy

/-
No message makes the hotstuff part of a replica fail.

A failure of a handler ends the algorithm thread.  What a handler reads is there, its searches end
with enough fuel, and what it computes of validator sets, of votes and of numbers is defined.
-/

namespace HotStuffRs

open Kv Kv.Process
open Result (Eventually)

variable {apps : App → Prop} {good : ValidatorSet → Prop} {vss : ValidatorSetState}

/-! ## Leaders -/

/-- Both active validator sets are good. -/
def ValidatorSetState.Good (good : ValidatorSet → Prop) (vss : ValidatorSetState) : Prop :=
  good vss.committedValidatorSet ∧ good vss.previousValidatorSet

section

variable (husable : UsableSets apps good) (hvss : vss.Good good)
include husable hvss

theorem isProposer_ok (validator : VerifyingKey) (view : ViewNumber) :
    ∃ yes, isProposer validator view vss = .ok yes := by
  obtain ⟨leader, hleader, -⟩ := exists_selectLeader (husable.leader _ hvss.1) view
  obtain ⟨leader', hleader', -⟩ := exists_selectLeader (husable.leader _ hvss.2) view
  unfold isProposer
  rw [hleader, Result.ok_bind, hleader']
  split
  · exact ⟨_, rfl⟩
  · split
    · exact ⟨_, rfl⟩
    · exact ⟨_, rfl⟩

theorem phaseVoteRecipient_ok {vote : PhaseVote} (hview : vote.view ≠ U64.max) :
    ∃ recipient, phaseVoteRecipient vote vss = .ok recipient := by
  obtain ⟨next, hnext⟩ := U64.exists_add_one_iff.mpr hview
  obtain ⟨leader, hleader, -⟩ := exists_selectLeader (husable.leader _ hvss.1) next
  obtain ⟨leader', hleader', -⟩ := exists_selectLeader (husable.leader _ hvss.2) next
  unfold phaseVoteRecipient
  rw [hnext, Result.ok_bind, hleader, hleader']
  split
  · exact ⟨_, rfl⟩
  · cases vote.phase <;> exact ⟨_, rfl⟩

end

/-! ## Collectors -/

namespace ActiveCollectorPair

open SlotCollector

variable {C Vote Certificate Topic : Type} [DecidableEq Topic] [Collector C Vote Certificate]
  [SlotCollector C Vote Certificate Topic]

/-- `c` holds what it has collected for a good validator set. -/
def WorksFor (good : ValidatorSet → Prop) (c : C) : Prop :=
  good (Collector.validatorSet c) ∧
    ∃ g : Topic → VerifyingKey → Option SignatureBytes, Gathers c g

/-- Both collectors work for good validator sets. -/
def Working (good : ValidatorSet → Prop) (pair : ActiveCollectorPair C) : Prop :=
  pair.Forall (WorksFor good)

variable {c : C} {pair : ActiveCollectorPair C}

theorem worksFor_new {vs : ValidatorSet} (hvs : good vs) (chainId : ChainID) (view : ViewNumber) :
    WorksFor good (Collector.new chainId view vs : C) := by
  refine ⟨?_, _, gathers_new chainId view vs⟩
  rw [validatorSet_new]
  exact hvs

theorem WorksFor.collect (h : WorksFor good c) (hbounded : ∀ vs, good vs → vs.Bounded)
    (signer : VerifyingKey) (vote : Vote) :
    ∃ cert c', Collector.collect c signer vote = .ok (cert, c') ∧ WorksFor good c' := by
  obtain ⟨hgood, g, hg⟩ := h
  by_cases htakes : Takes c g signer vote
  · obtain ⟨slot, hslot, hcollect⟩ := collect_of_takes hg htakes
    obtain ⟨quorum, hquorum⟩ := (hbounded _ hgood).quorum
    rw [hquorum, Result.ok_bind] at hcollect
    by_cases hle : quorum ≤ slot.2
    · rw [if_pos hle] at hcollect
      refine ⟨_, _, hcollect, ?_, ?_⟩
      · rw [validatorSet_finish]
        exact hgood
      · rcases hg.finish hslot with hfinish | hfinish
        · exact ⟨_, hfinish⟩
        · exact ⟨_, hfinish⟩
    · rw [if_neg hle] at hcollect
      refine ⟨_, _, hcollect, ?_, _, hg.store hslot⟩
      rw [validatorSet_store]
      exact hgood
  · exact ⟨_, _, collect_of_not_takes hg htakes, hgood, g, hg⟩

namespace Working

theorem new (hvss : vss.Good good) (chainId : ChainID) (view : ViewNumber) :
    Working good (.new chainId view vss : ActiveCollectorPair C) := by
  refine ⟨worksFor_new hvss.1 chainId view, fun c hc => ?_⟩
  unfold ActiveCollectorPair.new at hc
  dsimp only at hc
  split at hc
  · cases hc
  · obtain rfl := Option.some.inj hc
    exact worksFor_new hvss.2 chainId view

variable (h : Working good pair)
include h

theorem collect (hbounded : ∀ vs, good vs → vs.Bounded) (signer : VerifyingKey) (vote : Vote) :
    ∃ cert pair', pair.collect signer vote = .ok (cert, pair') ∧ Working good pair' := by
  obtain ⟨cert, c', hcollect, hworks⟩ := h.1.collect hbounded signer vote
  unfold ActiveCollectorPair.collect
  rw [hcollect, Result.ok_bind]
  cases cert with
  | some cert => exact ⟨_, _, rfl, hworks, h.2⟩
  | none =>
    cases hpvs : pair.pvsCollector with
    | none =>
      refine ⟨_, _, rfl, hworks, fun q hq => ?_⟩
      cases hq
    | some q =>
      obtain ⟨cert, q', hcollect', hworks'⟩ := (h.2 q hpvs).collect hbounded signer vote
      dsimp only
      rw [hcollect', Result.ok_bind]
      refine ⟨_, _, rfl, hworks, fun p hp => ?_⟩
      obtain rfl := Option.some.inj hp
      exact hworks'

theorem updateValidatorSets (hvss : vss.Good good) :
    Working good (pair.updateValidatorSets vss).1 := by
  have hcvs : WorksFor good (newCvs pair vss) := by
    unfold newCvs
    split
    · exact worksFor_new hvss.1 _ _
    · exact h.1
  have hpvs : WorksFor good (newPvs pair vss) := by
    unfold newPvs
    split
    · exact hcvs
    · exact worksFor_new hvss.2 _ _
  rw [updateValidatorSets_eq]
  split
  · refine ⟨hcvs, fun q hq => ?_⟩
    cases hq
  · split
    · refine ⟨hcvs, fun q hq => ?_⟩
      obtain rfl := Option.some.inj hq
      exact hpvs
    · exact ⟨hcvs, h.2⟩

end Working
end ActiveCollectorPair

/-! ## The handlers -/

/-- The block of a proposal is one of `blocks`, and a nudge comes in a view that has one before
it. -/
def HotStuffMessage.Manageable (blocks : Set Block) (view : ViewNumber) : HotStuffMessage → Prop
  | .proposal msg => msg.block ∈ blocks
  | .nudge _ => view ≠ 0
  | .phaseVote _ | .newView _ => True

namespace HotStuff

open BlockTree

variable {cr : Crypto} {blocks : Set Block} {app : App} {w : World HotStuff Action Var.Val}

theorem ends_stopAccepting (origin : VerifyingKey) :
    Ends (fun _ => stopAccepting origin) (fun _ _ => True) w :=
  .of_run rfl trivial

/-- With enough fuel, the tree is updated with a certificate about a stored block, and the new
validator sets are good. -/
theorem ends_updateBlockTree (h : Sturdy cr blocks good w.tree)
    (hadmissible : Admissible cr blocks) {justify : PhaseCertificate}
    (hstored : ¬justify.isGenesisPc = true → Stored w.tree justify.block) :
    Ends (fun fuel => updateBlockTree fuel justify)
      (fun vss w' => vss.Good good ∧ w'.mem.viewInfo = w.mem.viewInfo) w := by
  obtain ⟨⟨wb, updates⟩, n, hupdate⟩ := h.updateBatch hadmissible hstored
  have hgoverned : Governed good (Store.write w.tree wb) :=
    h.governed.update (hupdate n le_rfl)
  obtain ⟨vss, hvss, hgood⟩ := hgoverned.validatorSetState
  unfold updateBlockTree
  refine .store_bind (.lift_bind ⟨n, hupdate⟩ (.write_bind ?_))
  cases updates with
  | none =>
    refine .store_bind (.ok_bind (a := vss) ?_ (.mem_bind (.setMem_bind (.pure ?_))))
    · rw [World.tree_emit]
      exact hvss
    · exact ⟨hgood, rfl⟩
  | some updates =>
    refine .act_bind (.store_bind (.ok_bind (a := vss) ?_ (.mem_bind (.setMem_bind (.pure ?_)))))
    · rw [World.tree_emit, World.tree_emit]
      exact hvss
    · exact ⟨hgood, rfl⟩

/-- A vote is sent if the view after the current one can be computed. -/
theorem ends_vote (husable : UsableSets apps good) (hvss : vss.Good good)
    (hview : w.mem.viewInfo.view ≠ U64.max) (justify : PhaseCertificate) (block : CryptoHash)
    (phase : Phase) : Ends (fun _ => vote cr vss justify block phase) (fun _ _ => True) w := by
  let vote : PhaseVote :=
    .new cr w.mem.config.me w.mem.config.chainId w.mem.viewInfo.view block phase
  obtain ⟨recipient, hrecipient⟩ : ∃ recipient, phaseVoteRecipient vote vss = .ok recipient :=
    phaseVoteRecipient_ok husable hvss hview
  unfold HotStuff.vote
  refine .mem_bind (.store_bind (.ite (fun _ => ?_) fun _ => .pure trivial))
  rw [kv_highestViewPhaseVoted]
  refine .ok_bind rfl (.ite (fun _ => ?_) fun _ => .pure trivial)
  exact .ok_bind hrecipient (.act_bind (.of_run rfl trivial))

variable (h : Sturdy cr blocks good w.tree) (husable : UsableSets apps good)
  (hadmissible : Admissible cr blocks)
include h husable hadmissible

theorem ends_onReceiveProposal {proposal : Proposal} (hblock : proposal.block ∈ blocks)
    (hview : w.mem.viewInfo.view ≠ U64.max) (happ : apps app) (origin : VerifyingKey) :
    Ends (fun fuel => onReceiveProposal cr app fuel proposal origin) (fun _ _ => True) w := by
  unfold onReceiveProposal
  refine .mem_bind (.store_bind (.both (h.isCorrect husable hadmissible hblock)
    (h.safeBlock _ _) (fun hcorrect hsafe => ?_) (ends_stopAccepting origin)))
  have hstored := fun hgenesis => h.stored_of_safePc (safePc_of_safeBlock hsafe).1 hgenesis
  obtain ⟨view, hview'⟩ := h.appView_of_safeBlock hsafe
  refine .lift_bind hview' ?_
  cases hanswer : app.validateBlock proposal.block view with
  | invalid => exact ends_stopAccepting origin
  | valid appStateUpdates validatorSetUpdates =>
    have hinserted : Sturdy cr blocks good (w.emit (.write (insertBatch w.tree proposal.block
        appStateUpdates validatorSetUpdates))).tree := by
      rw [World.tree_emit]
      refine h.insert hadmissible hblock hcorrect hsafe fun updates hupdates => ?_
      obtain rfl := hupdates
      exact husable.updates app happ _ _ _ ⟨view, .inl hanswer⟩
    have hstored' : ¬proposal.block.justify.isGenesisPc = true → Stored (w.emit (.write (insertBatch
        w.tree proposal.block appStateUpdates validatorSetUpdates))).tree
          proposal.block.justify.block := by
      intro hgenesis
      rw [World.tree_emit]
      exact (stored_insert _).mpr (.inr (hstored hgenesis))
    refine .write_bind (.bind ((ends_updateBlockTree hinserted hadmissible hstored').mono
      fun vss w' hw' => ?_))
    obtain ⟨hvss, hview'⟩ := hw'
    refine .bind ((ends_vote husable hvss (hview' ▸ hview) _ _ _).mono fun _ w'' _ => ?_)
    exact ends_stopAccepting origin

theorem ends_onReceiveNudge {nudge : Nudge} (hzero : w.mem.viewInfo.view ≠ 0)
    (hview : w.mem.viewInfo.view ≠ U64.max) (origin : VerifyingKey) :
    Ends (fun fuel => onReceiveNudge cr fuel nudge origin) (fun _ _ => True) w := by
  unfold onReceiveNudge
  refine .mem_bind (.store_bind (.both (h.governed.isCorrect husable.bounded cr _)
    (h.safeNudge nudge hzero _) (fun _ hsafe => ?_) (ends_stopAccepting origin)))
  obtain ⟨phase, hphase⟩ := Protocol.HotStuff.nudgedPhase_of_safe hsafe
  have hstored := fun hgenesis => h.stored_of_safePc (safePc_of_safeNudge hsafe) hgenesis
  refine .bind ((ends_updateBlockTree h hadmissible hstored).mono fun vss w' hw' => ?_)
  obtain ⟨hvss, hview'⟩ := hw'
  refine .ok_bind hphase (.bind ((ends_vote husable hvss (hview' ▸ hview) _ _ _).mono
    fun _ w'' _ => ?_))
  exact ends_stopAccepting origin

theorem ends_acceptPc (pc : PhaseCertificate) :
    Ends (fun fuel => acceptPc cr fuel pc) (fun _ _ => True) w := by
  unfold acceptPc
  refine .mem_bind (.store_bind (.both (h.governed.isCorrect husable.bounded cr pc)
    (h.safePc pc _) (fun _ hsafe => ?_) (.pure trivial)))
  refine .bind ((ends_updateBlockTree h hadmissible fun hgenesis =>
    h.stored_of_safePc hsafe hgenesis).mono fun _ _ _ => .pure trivial)

theorem ends_onReceivePhaseVote (hworking : w.mem.phaseVoteCollectors.Working good)
    (phaseVote : PhaseVote) (signer : VerifyingKey) :
    Ends (fun fuel => onReceivePhaseVote cr fuel phaseVote signer) (fun _ _ => True) w := by
  obtain ⟨newPc, collectors, hcollect, -⟩ := hworking.collect husable.bounded signer phaseVote
  unfold onReceivePhaseVote
  refine .mem_bind (.ite (fun _ => ?_) fun _ => .pure trivial)
  refine .ok_bind hcollect (.setMem_bind ?_)
  cases newPc with
  | none => exact .pure trivial
  | some newPc =>
    refine ends_acceptPc ?_ husable hadmissible newPc
    rw [World.tree_setMem]
    exact h

/-- With enough fuel every message is handled, whoever sends it. -/
theorem ends_onReceiveMsg (hworking : w.mem.phaseVoteCollectors.Working good)
    (hview : w.mem.viewInfo.view ≠ U64.max) (happ : apps app) {msg : HotStuffMessage}
    (hmsg : msg.Manageable blocks w.mem.viewInfo.view) (origin : VerifyingKey) :
    Ends (fun fuel => onReceiveMsg cr app fuel msg origin) (fun _ _ => True) w := by
  obtain ⟨vss, hvss, hgood⟩ := h.governed.validatorSetState
  obtain ⟨isProposer, hproposer⟩ := isProposer_ok husable hgood origin w.mem.viewInfo.view
  unfold onReceiveMsg
  refine .mem_bind (.store_bind ?_)
  cases msg with
  | proposal proposal =>
    refine .ok_bind hvss (.ok_bind hproposer (.ite (fun _ => ?_) fun _ => .pure trivial))
    exact ends_onReceiveProposal h husable hadmissible hmsg hview happ origin
  | nudge nudge =>
    refine .ok_bind hvss (.ok_bind hproposer (.ite (fun _ => ?_) fun _ => .pure trivial))
    exact ends_onReceiveNudge h husable hadmissible hmsg hview origin
  | phaseVote phaseVote =>
    exact ends_onReceivePhaseVote h husable hadmissible hworking phaseVote origin
  | newView newView => exact ends_acceptPc h husable hadmissible newView.highestPc

end HotStuff

/-! ## What is held in memory -/

namespace HotStuff

open BlockTree

variable {cr : Crypto} {app : App} {fuel : Nat} {w : World HotStuff Action Var.Val}

/-- The validator sets of the tree are good, and those that votes are collected for. -/
def Collecting (good : ValidatorSet → Prop) (w : World HotStuff Action Var.Val) : Prop :=
  Governed good w.tree ∧ w.mem.phaseVoteCollectors.Working good

abbrev KeepsCollecting {α : Type} (good : ValidatorSet → Prop) (m : Handler α) : Prop :=
  Keeps (Collecting good) (fun _ => True) m

theorem Collecting.act (h : Collecting good w) (a : Action) :
    Collecting good (w.emit (.act a)) := by
  refine ⟨?_, h.2⟩
  rw [World.tree_emit]
  exact h.1

theorem Collecting.note (h : Collecting good w) {v : Var} {x : v.Val} (hv : Protocol.IsNote v) :
    Collecting good (w.emit (.write [.set v x])) := by
  refine ⟨?_, h.2⟩
  rw [World.tree_emit]
  exact h.1.note hv

theorem keepsCollecting_lift {α : Type} (x : Result α) : KeepsCollecting good (lift x) :=
  .lift (fun _ _ => trivial) x

theorem keepsCollecting_act (a : Action) : KeepsCollecting good (act a) := .act fun _ h => h.act a

theorem keepsCollecting_stopAccepting (origin : VerifyingKey) :
    KeepsCollecting good (stopAccepting origin) := fun _ h => h

theorem keepsCollecting_vote {vss : ValidatorSetState} {justify : PhaseCertificate}
    {block : CryptoHash} {phase : Phase} :
    KeepsCollecting good (vote cr vss justify block phase) := by
  refine .bind .mem fun hs => .bind .store fun tree => .ite (.bind (keepsCollecting_lift _) fun _ => ?_)
    (.pure _)
  refine .ite (.bind (keepsCollecting_lift _) fun _ => .bind (keepsCollecting_act _) fun _ => ?_)
    (.pure _)
  exact fun _ h => h.note (.inr (.inr rfl))

/-- The collectors follow the validator sets that the update leaves. -/
theorem keepsCollecting_updateBlockTree (justify : PhaseCertificate) :
    KeepsCollecting good (updateBlockTree fuel justify) := by
  intro w h
  unfold updateBlockTree
  simp only [wp_bind, wp_store, wp_lift, wp_write]
  refine ⟨fun updated hupdate => ?_, fun _ _ => trivial⟩
  obtain ⟨wb, updates⟩ := updated
  have hwritten : Collecting good (w.emit (.write wb)) := by
    refine ⟨?_, h.2⟩
    rw [World.tree_emit]
    exact h.1.update hupdate
  have hfollow : ∀ w' : World HotStuff Action Var.Val, Collecting good w' →
      (∀ vss, w'.tree.kv.validatorSetState = .ok vss → Collecting good (w'.setMem { w'.mem with
        phaseVoteCollectors := (w'.mem.phaseVoteCollectors.updateValidatorSets vss).1 })) ∧
      ∀ e, w'.tree.kv.validatorSetState = .error e → True := by
    intro w' h'
    refine ⟨fun vss hvss => ⟨h'.1, h'.2.updateValidatorSets ?_⟩, fun _ _ => trivial⟩
    obtain ⟨vss', hvss', hgood⟩ := h'.1.validatorSetState
    obtain rfl := Except.ok.inj (hvss.symm.trans hvss')
    exact hgood
  cases updates with
  | none =>
    simp only [wp_bind, wp_pure, wp_store, wp_lift, wp_mem, wp_setMem]
    exact hfollow _ hwritten
  | some updates =>
    simp only [wp_bind, wp_act, wp_pure, wp_store, wp_lift, wp_mem, wp_setMem]
    exact hfollow _ (hwritten.act _)

theorem keepsCollecting_onReceiveProposal (husable : UsableSets apps good) (happ : apps app)
    (proposal : Proposal) (origin : VerifyingKey) :
    KeepsCollecting good (onReceiveProposal cr app fuel proposal origin) := by
  intro w h
  unfold onReceiveProposal
  rw [wp_bind, wp_mem, wp_bind, wp_store]
  refine wp_both trivial (fun _ _ => ?_) (keepsCollecting_stopAccepting origin w h)
  simp only [Bool.not_true, Bool.false_eq_true, if_false, wp_bind, wp_lift]
  refine ⟨fun view _ => ?_, fun _ _ => trivial⟩
  cases hanswer : app.validateBlock proposal.block view with
  | invalid => exact keepsCollecting_stopAccepting origin w h
  | valid appStateUpdates validatorSetUpdates =>
    simp only [wp_bind, wp_write]
    have hinserted : Collecting good (w.emit (.write (insertBatch w.tree proposal.block
        appStateUpdates validatorSetUpdates))) := by
      refine ⟨?_, h.2⟩
      rw [World.tree_emit]
      refine h.1.insert fun updates hupdates => ?_
      obtain rfl := hupdates
      exact husable.updates app happ _ _ _ ⟨view, .inl hanswer⟩
    refine wp_mono (keepsCollecting_updateBlockTree _ _ hinserted) (fun vss w' hw' => ?_) fun _ => id
    exact wp_mono (keepsCollecting_vote w' hw')
      (fun _ w'' => keepsCollecting_stopAccepting origin w'') fun _ => id

theorem keepsCollecting_onReceiveNudge (nudge : Nudge) (origin : VerifyingKey) :
    KeepsCollecting good (onReceiveNudge cr fuel nudge origin) := by
  intro w h
  unfold onReceiveNudge
  rw [wp_bind, wp_mem, wp_bind, wp_store]
  refine wp_both trivial (fun _ _ => ?_) (keepsCollecting_stopAccepting origin w h)
  simp only [Bool.not_true, Bool.false_eq_true, if_false, wp_bind, wp_lift]
  refine wp_mono (keepsCollecting_updateBlockTree _ w h) (fun vss w' hw' => ?_) fun _ => id
  refine ⟨fun phase _ => ?_, fun _ _ => trivial⟩
  exact wp_mono (keepsCollecting_vote w' hw')
    (fun _ w'' => keepsCollecting_stopAccepting origin w'') fun _ => id

theorem keepsCollecting_acceptPc (pc : PhaseCertificate) :
    KeepsCollecting good (acceptPc cr fuel pc) := by
  intro w h
  unfold acceptPc
  rw [wp_bind, wp_mem, wp_bind, wp_store]
  refine wp_both trivial (fun _ _ => ?_) h
  simp only [if_true, wp_bind, wp_pure]
  exact wp_mono (keepsCollecting_updateBlockTree pc w h) (fun _ _ hw' => hw') fun _ => id

theorem keepsCollecting_onReceivePhaseVote (husable : UsableSets apps good) (phaseVote : PhaseVote)
    (signer : VerifyingKey) : KeepsCollecting good (onReceivePhaseVote cr fuel phaseVote signer) := by
  intro w h
  obtain ⟨newPc, collectors, hcollect, hworking⟩ := h.2.collect husable.bounded signer phaseVote
  unfold onReceivePhaseVote
  rw [wp_bind, wp_mem, wp_ite]
  split
  · rw [hcollect, wp_bind, wp_lift]
    refine ⟨fun result hresult => ?_, fun _ _ => trivial⟩
    obtain rfl := Except.ok.inj hresult
    rw [wp_bind, wp_setMem]
    have hcollected : Collecting good (w.setMem { w.mem with phaseVoteCollectors := collectors }) :=
      ⟨h.1, hworking⟩
    cases newPc with
    | none => exact hcollected
    | some newPc => exact keepsCollecting_acceptPc newPc _ hcollected
  · exact h

theorem keepsCollecting_onReceiveMsg (husable : UsableSets apps good) (happ : apps app)
    (msg : HotStuffMessage) (origin : VerifyingKey) :
    KeepsCollecting good (onReceiveMsg cr app fuel msg origin) := by
  refine .bind .mem fun hs => .bind .store fun tree => ?_
  cases msg with
  | proposal proposal =>
    refine .bind (keepsCollecting_lift _) fun _ => .bind (keepsCollecting_lift _) fun _ => ?_
    exact .ite (keepsCollecting_onReceiveProposal husable happ proposal origin) (.pure _)
  | nudge nudge =>
    refine .bind (keepsCollecting_lift _) fun _ => .bind (keepsCollecting_lift _) fun _ => ?_
    exact .ite (keepsCollecting_onReceiveNudge nudge origin) (.pure _)
  | phaseVote phaseVote => exact keepsCollecting_onReceivePhaseVote husable phaseVote origin
  | newView newView => exact keepsCollecting_acceptPc newView.highestPc

theorem keepsCollecting_repropose (blockHash : CryptoHash) :
    KeepsCollecting good (repropose blockHash) := by
  refine .bind .mem fun hs => .bind .store fun tree => .bind (keepsCollecting_lift _) fun block? => ?_
  cases block? with
  | none => exact .throw (fun _ _ => trivial) _
  | some block => exact keepsCollecting_act _

theorem keepsCollecting_proposeNew (highestPc : PhaseCertificate) :
    KeepsCollecting good (proposeNew cr app fuel highestPc) := by
  have hpropose : ∀ (hs : HotStuff) (tree : BlockTree) (parent : Option CryptoHash)
      (childHeight : BlockHeight), KeepsCollecting good (do
        let view ← lift (tree.appView fuel parent)
        let made := app.produceBlock hs.viewInfo.view parent view
        let block ← lift (Block.new cr childHeight highestPc made.1 made.2)
        broadcast (.proposal { chainId := hs.config.chainId, view := hs.viewInfo.view, block })) :=
    fun _ _ _ _ => .bind (keepsCollecting_lift _) fun _ => .bind (keepsCollecting_lift _) fun _ =>
      keepsCollecting_act _
  refine .bind .mem fun hs => .bind .store fun tree => ?_
  by_cases hgenesis : highestPc.isGenesisPc = true
  · rw [if_pos hgenesis]
    exact hpropose hs tree none 0
  · rw [if_neg hgenesis]
    refine .bind (keepsCollecting_lift _) fun height? => ?_
    cases height? with
    | none => exact .throw (fun _ _ => trivial) _
    | some height =>
      refine .bind (keepsCollecting_lift _) fun childHeight => ?_
      exact hpropose hs tree (some highestPc.block) childHeight

theorem keepsCollecting_propose : KeepsCollecting good (propose cr app fuel) := by
  refine .bind .mem fun hs => .bind .store fun tree => .bind (keepsCollecting_lift _) fun block? => ?_
  cases block? with
  | some block => exact keepsCollecting_repropose block
  | none =>
    refine .bind (keepsCollecting_lift _) fun highestPc => ?_
    cases highestPc.phase with
    | generic | decide => exact keepsCollecting_proposeNew highestPc
    | prepare | precommit | commit => exact keepsCollecting_act _

theorem keepsCollecting_sendNewView (vss : ValidatorSetState) :
    KeepsCollecting good (sendNewView vss) := by
  refine .bind .mem fun hs => .bind .store fun tree => .bind (keepsCollecting_lift _) fun highestPc => ?_
  refine .bind (keepsCollecting_lift _) fun recipients => .bind (keepsCollecting_act _) fun _ => ?_
  cases recipients.2 with
  | some leader => exact keepsCollecting_act _
  | none => exact .pure _

theorem keepsCollecting_enterView (newViewInfo : ViewInfo) :
    KeepsCollecting good (enterView cr app fuel newViewInfo) := by
  intro w h
  obtain ⟨vss, hvss, hgood⟩ := h.1.validatorSetState
  unfold enterView
  rw [wp_bind, wp_store, hvss, wp_bind, wp_lift]
  refine ⟨fun vss' hvss' => ?_, fun _ _ => trivial⟩
  obtain rfl := Except.ok.inj hvss'
  rw [wp_bind]
  refine wp_mono (keepsCollecting_sendNewView vss w h) (fun _ w' hw' => ?_) fun _ => id
  rw [wp_bind, wp_mem, wp_bind, wp_setMem, wp_bind, wp_write]
  have hentered : Collecting good ((w'.setMem { w'.mem with
      viewInfo := newViewInfo
      proposalStatus := .waitingForProposal
      phaseVoteCollectors := .new w'.mem.config.chainId newViewInfo.view vss }).emit
        (.write (WriteBatch.setHighestViewEntered newViewInfo.view))) := by
    refine Collecting.note ?_ (.inl rfl)
    exact ⟨hw'.1, .new hgood _ _⟩
  refine Keeps.bind (keepsCollecting_lift _) (fun isProposer => ?_) _ hentered
  exact .ite keepsCollecting_propose (.pure _)

end HotStuff

/-! ## Along runs -/

namespace Protocol

open BlockTree Lts

variable {cr : Crypto} {config : Configuration} {a : State} {fuel : Nat} {input : Input}
  {w : World Algorithm Action Var.Val}

theorem governed_of_treePath {s t : BlockTree} {log : List Event} (husable : UsableSets apps good)
    (hs : Governed good s) (path : Path (TreeStep cr config apps) s log t) : Governed good t := by
  refine treePath_invariant (P := fun _ _ _ => True) path (fun _ _ _ _ _ => trivial) hs ?_ ?_ ?_
  · intro s block appStateUpdates validatorSetUpdates app h _ _ happ hvalid _
    refine h.insert fun updates hupdates => ?_
    obtain rfl := hupdates
    exact husable.updates app happ _ _ _ hvalid
  · exact fun h hupdate => h.update hupdate
  · exact fun h hv => h.note hv

/-- The replica is ready, and collects votes for good validator sets only. -/
def Collecting (cr : Crypto) (config : Configuration) (apps : App → Prop)
    (good : ValidatorSet → Prop) (a : State) (w : World Algorithm Action Var.Val) : Prop :=
  Ready cr config apps a w ∧ w.mem.hotstuff.phaseVoteCollectors.Working good

theorem Collecting.governed (husable : UsableSets apps good) (ha : Governed good a.tree)
    (h : Collecting cr config apps good a w) : Governed good w.tree := by
  obtain ⟨⟨-, st, -, -, path⟩, -⟩ := h
  exact governed_of_treePath husable ha (path.map State.tree fun _ _ _ => Step.treeStep)

theorem collecting_onHotStuff {h : HotStuff.Handler Unit} (husable : UsableSets apps good)
    (ha : Governed good a.tree) (hw : Collecting cr config apps good a w)
    (hstays : StaysBehind cr config apps a (Algorithm.onHotStuff h) w)
    (hh : HotStuff.KeepsCollecting good h) :
    wp (Algorithm.onHotStuff h) (fun _ => Collecting cr config apps good a) (fun _ => True) w := by
  have hworking : wp (Algorithm.onHotStuff h)
      (fun _ w' => w'.mem.hotstuff.phaseVoteCollectors.Working good) (fun _ => True) w := by
    rw [Algorithm.onHotStuff, wp_zoom]
    exact wp_mono (hh _ ⟨hw.governed husable ha, hw.2⟩) (fun _ _ hw' => hw'.2) fun _ => id
  exact wp_mono (wp_and hstays.wp hworking) (fun _ _ hw' => hw') fun _ _ => trivial

/-- The other handlers leave the collectors alone. -/
theorem collecting_of_stays {m : Algorithm.Handler Unit} (hw : Collecting cr config apps good a w)
    (hstays : StaysBehind cr config apps a m w)
    (hm : wp m (fun _ w' => w'.mem.hotstuff = w.mem.hotstuff) (fun _ => True) w) :
    wp m (fun _ => Collecting cr config apps good a) (fun _ => True) w := by
  refine wp_mono (wp_and hstays.wp hm) (fun _ w' hw' => ⟨hw'.1, ?_⟩) fun _ _ => trivial
  rw [hw'.2]
  exact hw.2

theorem hotstuff_onPacemaker (h : Pacemaker.Handler Unit) :
    wp (Algorithm.onPacemaker h) (fun _ w' => w'.mem.hotstuff = w.mem.hotstuff)
      (fun _ => True) w := by
  rw [Algorithm.onPacemaker, wp_zoom]
  exact wp_mono (wp_true h _) (fun _ _ _ => rfl) fun _ _ => trivial

theorem hotstuff_onBlockSyncClient (h : BlockSyncClient.Handler Unit) :
    wp (Algorithm.onBlockSyncClient h) (fun _ w' => w'.mem.hotstuff = w.mem.hotstuff)
      (fun _ => True) w := by
  rw [Algorithm.onBlockSyncClient, wp_zoom]
  exact wp_mono (wp_true h _) (fun _ _ _ => rfl) fun _ _ => trivial

section

variable (husable : UsableSets apps good) (ha : Governed good a.tree)
include husable ha

theorem collecting_beforeReceive (hw : Collecting cr config apps good a w) :
    wp (Algorithm.beforeReceive cr fuel input) (fun _ => Collecting cr config apps good a)
      (fun _ => True) w := by
  unfold Algorithm.beforeReceive
  rw [wp_bind]
  refine wp_mono (collecting_of_stays hw (stays_tick hw.1) (hotstuff_onPacemaker _))
    (fun _ w' hw' => ?_) fun _ => id
  have hstays : StaysBehind cr config apps a (Algorithm.followView cr fuel input) w' :=
    stays_followView hw'.1
  unfold Algorithm.followView at hstays ⊢
  rw [StaysBehind, wp_bind, wp_mem, wp_ite] at hstays
  rw [wp_bind, wp_mem, wp_ite]
  split
  · rename_i houtdated
    rw [if_pos houtdated] at hstays
    exact collecting_onHotStuff husable ha hw' hstays (HotStuff.keepsCollecting_enterView _)
  · exact hw'

theorem collecting_receive (happ : apps input.app) (hw : Collecting cr config apps good a w) :
    wp (Algorithm.receive cr fuel input) (fun _ => Collecting cr config apps good a)
      (fun _ => True) w := by
  have hstays : StaysBehind cr config apps a (Algorithm.receive cr fuel input) w :=
    stays_receive happ hw.1
  unfold Algorithm.receive at hstays ⊢
  rw [StaysBehind, wp_bind, wp_mem] at hstays
  rw [wp_bind, wp_mem]
  cases hmessage : input.message with
  | none => exact hw
  | some message =>
    obtain ⟨origin, msg⟩ := message
    simp only [hmessage, wp_ite] at hstays ⊢
    split
    · rename_i hreceivable
      rw [if_pos hreceivable] at hstays
      cases msg with
      | hotStuff msg =>
        exact collecting_onHotStuff husable ha hw hstays
          (HotStuff.keepsCollecting_onReceiveMsg husable happ msg origin)
      | pacemaker msg => exact collecting_of_stays hw hstays (hotstuff_onPacemaker _)
      | blockSyncAdvertise msg =>
        exact collecting_of_stays hw hstays (hotstuff_onBlockSyncClient _)
    · exact hw

theorem collecting_iterate (happ : apps input.app) (hw : Collecting cr config apps good a w) :
    wp (Algorithm.iterate cr fuel input) (fun _ => Collecting cr config apps good a)
      (fun _ => True) w := by
  rw [Algorithm.iterate_eq, wp_bind]
  refine wp_mono (collecting_beforeReceive husable ha hw) (fun _ w' hw' => ?_) fun _ => id
  rw [wp_bind]
  refine wp_mono (collecting_receive husable ha happ hw') (fun _ w'' hw'' => ?_) fun _ => id
  exact collecting_of_stays hw'' (stays_sync happ hw''.1) (hotstuff_onBlockSyncClient _)

end

theorem collecting_of_start {s : BlockTree} {now : Instant} {r : Replica} (hs : Governed good s)
    (hstart : Replica.start config s now = .ok r) :
    r.alg.hotstuff.phaseVoteCollectors.Working good := by
  obtain ⟨vss, hvss, hgood⟩ := hs.validatorSetState
  simp only [Replica.start, Algorithm.new, hvss, Result.ok_bind, Result.bind_eq_ok,
    Result.pure_eq, Except.ok.injEq] at hstart
  obtain ⟨alg, ⟨view, -, pm, -, rfl⟩, rfl⟩ := hstart
  exact .new hgood _ _

variable {s₀ : BlockTree} {log : List Event} {r : Replica}

/-- A replica that starts with good validator sets collects votes for good ones only. -/
theorem collecting_of_run (husable : UsableSets apps good) (hs₀ : Governed good s₀)
    (run : Run cr config apps s₀ log r) : r.alg.hotstuff.phaseVoteCollectors.Working good := by
  have hgoverned : ∀ {log : List Event} {v₀ : ViewNumber} {b : State},
      Path (Step cr config apps) ⟨s₀, v₀, .idle⟩ log b → Governed good b.tree := fun path =>
    governed_of_treePath husable hs₀ (path.map State.tree fun _ _ _ => Step.treeStep)
  induction run with
  | start hstart => exact collecting_of_start hs₀ hstart
  | iterate run happ hok ih =>
    obtain ⟨a, htree, ⟨v₀, -, path⟩, hready⟩ := (run_tracks run).ready
    exact (wp_ok (collecting_iterate husable (hgoverned path) happ ⟨hready, ih⟩) hok).2
  | @restart log r fuel input effects r' now run happ hcrash hstart ih =>
    obtain ⟨v₀, b, -, path⟩ := (run_tracks run).iterated happ hcrash
    refine collecting_of_start ?_ hstart
    have hb := hgoverned path
    rw [path_tree path, replay_append, ← (run_tracks run).tree_eq, replay_effects] at hb
    exact hb

/-- Nothing is missing in the tree of a replica that starts with good validator sets and inserts
admissible blocks only. -/
theorem sturdy_of_ready {appState : AppStateUpdates} {vss : ValidatorSetState} {v₀ : ViewNumber}
    (path : Path (Step cr config apps) ⟨initial appState vss, v₀, .idle⟩ log a)
    (hready : Ready cr config apps a w) (husable : UsableSets apps good) (hvss : vss.Good good)
    (hadmissible : Admissible cr blocks)
    (hmanages : Manages (initial appState vss) blocks (log ++ w.effects.map .effect)) :
    Sturdy cr blocks good w.tree := by
  obtain ⟨-, st, -, -, rest⟩ := hready
  exact sturdy_of_treePath ((path.append rest).map State.tree fun _ _ _ => Step.treeStep)
    (.initial hvss.1 hvss.2) husable hadmissible hmanages

theorem sturdy_beforeReceive {appState : AppStateUpdates} {vss : ValidatorSetState}
    (run : Run cr config apps (initial appState vss) log r)
    (hw : Algorithm.beforeReceive cr fuel input r.world = .ok () w)
    (husable : UsableSets apps good) (hvss : vss.Good good) (hadmissible : Admissible cr blocks)
    (hmanages : Manages (initial appState vss) blocks (log ++ w.effects.map .effect)) :
    Sturdy cr blocks good w.tree ∧ w.mem.hotstuff.phaseVoteCollectors.Working good := by
  have hs₀ : Governed good (initial appState vss) := .initial hvss.1 hvss.2
  obtain ⟨a, -, ⟨v₀, -, path⟩, hready⟩ := (run_tracks run).ready
  have ha : Governed good a.tree :=
    governed_of_treePath husable hs₀ (path.map State.tree fun _ _ _ => Step.treeStep)
  obtain ⟨hready', hworking⟩ := wp_ok (collecting_beforeReceive husable ha
    ⟨hready, collecting_of_run husable hs₀ run⟩) hw
  exact ⟨sturdy_of_ready path hready' husable hvss hadmissible hmanages, hworking⟩

/-- With enough fuel, no hotstuff message makes the thread of a replica fail. -/
theorem hotStuff_never_fails {appState : AppStateUpdates} {vss : ValidatorSetState}
    (run : Run cr config apps (initial appState vss) log r) (happ : apps input.app)
    (hw : Algorithm.beforeReceive cr fuel input r.world = .ok () w)
    (husable : UsableSets apps good) (hvss : vss.Good good) (hadmissible : Admissible cr blocks)
    (hmanages : Manages (initial appState vss) blocks (log ++ w.effects.map .effect))
    (hview : w.mem.hotstuff.viewInfo.view ≠ U64.max) {origin : VerifyingKey}
    {msg : HotStuffMessage} (hmessage : input.message = some (origin, .hotStuff msg))
    (hmsg : msg.Manageable blocks w.mem.hotstuff.viewInfo.view) :
    ∃ n, ∀ fuel ≥ n, Succeeds (Algorithm.receive cr fuel input) w := by
  obtain ⟨hsturdy, hworking⟩ := sturdy_beforeReceive run hw husable hvss hadmissible hmanages
  have hends : Ends (fun fuel => Algorithm.receive cr fuel input) (fun _ _ => True) w := by
    unfold Algorithm.receive
    refine .mem_bind ?_
    rw [hmessage]
    refine .ite (fun _ => .zoom ?_) fun _ => .pure trivial
    exact HotStuff.ends_onReceiveMsg hsturdy husable hadmissible hworking hview happ hmsg origin
  exact hends.succeeds

end Protocol

/-! ## A proposal in the fourth view -/

namespace Sample

theorem blockOn_eq (height : BlockHeight) (justify : PhaseCertificate) (dataHash : CryptoHash) :
    ∃ hash, blockOn height justify dataHash = ⟨height, hash, justify, dataHash, []⟩ := by
  unfold blockOn
  cases hnew : Block.new crypto height justify dataHash [] with
  | error e => exact ⟨0, rfl⟩
  | ok block =>
    unfold Block.new at hnew
    split at hnew
    · cases hnew
    · obtain ⟨hash, -, hblock⟩ := Result.bind_eq_ok.mp hnew
      obtain rfl := Except.ok.inj hblock
      exact ⟨hash, rfl⟩

theorem sha256_ne_zero (bytes : List Byte) : sha256 bytes ≠ 0 := by
  intro hzero
  have hval : (Codec.ofLeBytes bytes % (2 ^ 255 - 19) + 1) % 2 ^ 256 = 0 := congrArg Fin.val hzero
  omega

end Sample

namespace Protocol

open BlockTree

def agreedBlocks : Set Block :=
  {block | block.data = [] ∧ ∃ agreed ∈ Sample.agreedChain, Block.HashedAlike block agreed.2}

theorem blockOn_of_agreedChain {agreed : ViewNumber × Block} (h : agreed ∈ Sample.agreedChain) :
    ∃ height justify dataHash, agreed.2 = Sample.blockOn height justify dataHash ∧
      height ≠ U64.max ∧ justify.view ≠ U64.max := by
  simp only [Sample.agreedChain, List.mem_cons, List.not_mem_nil, or_false] at h
  rcases h with rfl | rfl | rfl | rfl | rfl
  · exact ⟨0, .genesisPc, 101, rfl, by decide⟩
  · exact ⟨1, Sample.certify 1 Sample.block₀.hash .generic, 102, rfl, by decide⟩
  · exact ⟨2, Sample.certify 2 Sample.block₁.hash .generic, 103, rfl, by decide⟩
  · exact ⟨3, Sample.certify 3 Sample.block₂.hash .generic, 104, rfl, by decide⟩
  · exact ⟨4, Sample.certify 4 Sample.block₃.hash .generic, 105, rfl, by decide⟩

theorem mem_agreedBlocks {agreed : ViewNumber × Block} (h : agreed ∈ Sample.agreedChain) :
    agreed.2 ∈ agreedBlocks := by
  obtain ⟨height, justify, dataHash, heq, -⟩ := blockOn_of_agreedChain h
  obtain ⟨hash, hblock⟩ := Sample.blockOn_eq height justify dataHash
  refine ⟨?_, agreed, h, rfl, rfl, rfl⟩
  rw [heq, hblock]

theorem admissible_agreed : Admissible Sample.agreedCrypto agreedBlocks where
  free := collisionFree_of_agreed fun _ hblock => hblock
  hashable := by
    rintro block ⟨-, agreed, hagreed, hheight, hjustify, hdataHash⟩
    obtain ⟨bytes, hbytes, -⟩ := Block.hashOf_eq_ok.mp (hashes_of_agreedChain.1 agreed hagreed)
    rw [hheight, hjustify, hdataHash]
    exact ⟨bytes, hbytes⟩
  nonzero := by
    intro block _ hzero
    obtain ⟨bytes, -, hsha⟩ := Block.hashOf_eq_ok.mp hzero
    exact Sample.sha256_ne_zero bytes hsha
  bounded := by
    rintro block ⟨-, agreed, hagreed, hheight, hjustify, -⟩
    obtain ⟨height, justify, dataHash, heq, hbounded⟩ := blockOn_of_agreedChain hagreed
    obtain ⟨hash, hblock⟩ := Sample.blockOn_eq height justify dataHash
    rw [Block.Bounded, hheight, hjustify, heq, hblock]
    exact hbounded

theorem usableSets_app : UsableSets (· = Sample.app) (· = Sample.validators) where
  bounded := by
    rintro vs rfl
    decide
  leader := by
    rintro vs rfl
    decide
  updates := by
    intro app happ block appStateUpdates updates hvalid
    cases fixedValidators_app app happ block appStateUpdates _ hvalid

def managesAgreed (log : List Event) : Bool :=
  checkLog insertsAgreed Sample.tree log && checkLog (fun _ wb => wb.all boundedOp) Sample.tree log

theorem manages_of_agreed {log : List Event} (h : managesAgreed log = true) :
    Manages Sample.tree agreedBlocks log := by
  obtain ⟨hagreed, hbounded⟩ := Bool.and_eq_true_iff.mp h
  exact ⟨inserted_of_insertsAgreed hagreed, fun pc hraised hphase =>
    (raised_of_boundedOp hbounded pc hraised hphase).elim⟩

/-- Whether a replica is about to receive `input` in `view`, after a log with `P`. -/
def receivesIn (view : ViewNumber) (input : Input) (P : List Event → Bool) (log : List Event)
    (r : Replica) : Bool :=
  match Algorithm.beforeReceive Sample.agreedCrypto 30 input r.world with
  | .ok _ w => w.mem.hotstuff.viewInfo.view == view && P (log ++ w.effects.map .effect)
  | .error _ _ => false

set_option maxRecDepth 100000 in
theorem checks_fourthView : Replica.checks Sample.agreedCrypto (Sample.configuration Sample.follower)
    Sample.tree 30 (fun _ _ => true) Sample.agreedFollowerInputs.dropLast
    (receivesIn 4 Sample.fourthView managesAgreed) = true := by
  decide +kernel

/-- A replica that has gone through three views handles the proposal of the fourth. -/
theorem hotStuff_never_fails_in_fourth_view : ∃ log r w,
    Run Sample.agreedCrypto (Sample.configuration Sample.follower) (· = Sample.app) Sample.tree
      log r ∧
    Algorithm.beforeReceive Sample.agreedCrypto 30 Sample.fourthView r.world = .ok () w ∧
    w.mem.hotstuff.viewInfo.view = 4 ∧
    ∃ n, ∀ fuel ≥ n, Succeeds (Algorithm.receive Sample.agreedCrypto fuel Sample.fourthView) w := by
  have happs : ∀ input ∈ Sample.agreedFollowerInputs.dropLast, input.app = Sample.app :=
    fun input hinput => app_agreedFollowerInputs input (List.mem_of_mem_dropLast hinput)
  obtain ⟨log, r, run, hreceives⟩ := exists_run_of_checks happs checks_fourthView
  unfold receivesIn at hreceives
  cases hbefore : Algorithm.beforeReceive Sample.agreedCrypto 30 Sample.fourthView r.world with
  | error e w =>
    rw [hbefore] at hreceives
    cases hreceives
  | ok _ w =>
    simp only [hbefore, Bool.and_eq_true, beq_iff_eq] at hreceives
    obtain ⟨hview, hmanages⟩ := hreceives
    refine ⟨log, r, w, run, hbefore, hview, ?_⟩
    refine hotStuff_never_fails run rfl hbefore usableSets_app ⟨rfl, rfl⟩ admissible_agreed
      (manages_of_agreed hmanages) ?_ rfl ?_
    · rw [hview]
      decide
    · exact @mem_agreedBlocks (4, Sample.block₃) (by simp [Sample.agreedChain])

end Protocol

end HotStuffRs
