import HotStuffRs.BlockTree.AppView
import HotStuffRs.BlockTree.Snapshot
import HotStuffRs.Kv.Emission
import HotStuffRs.Replica.Heights

/-
What a replica does, effect by effect.

`Step` leaves open what the messages say and which view of the tree the App was given.  `Emits`
says both, each time of the tree that the effect finds, and a replica emits nothing else.
-/

namespace HotStuffRs

open Kv Kv.Process Kv.World

/-- The App answers that `block` is valid when it sees `view`. -/
def App.Accepts (app : App) (block : Block) (view : BlockTree.AppBlockTreeView)
    (appStateUpdates : Option AppStateUpdates) (validatorSetUpdates : Option ValidatorSetUpdates) :
    Prop :=
  app.validateBlock block view = .valid appStateUpdates validatorSetUpdates ∨
    app.validateBlockForSync block view = .valid appStateUpdates validatorSetUpdates

namespace BlockTree

/-- `config.me` leads `view`, as the validator sets of `s` have it. -/
def Leads (s : BlockTree) (config : Configuration) (view : ViewNumber) : Prop :=
  ∃ vss, s.kv.validatorSetState = .ok vss ∧ isProposer config.me view vss = .ok true

/-- `block` is produced on top of the highest PC of `s`. -/
def Produces (cr : Crypto) (apps : App → Prop) (s : BlockTree) (view : ViewNumber) (block : Block) :
    Prop :=
  s .highestPc = some block.justify ∧
    (block.justify.phase = .generic ∨ block.justify.phase = .decide) ∧
    s.childHeight block.justify = some block.height.val ∧
    ∃ app fuel appView, apps app ∧ s.appView fuel block.parent? = .ok appView ∧
      let (dataHash, data) := app.produceBlock view block.parent? appView
      Block.new cr block.height block.justify dataHash data = .ok block

/-- A replica that has just entered `view` takes note of it right before. -/
def enters (view : ViewNumber) : Option Replica.Effect :=
  some (.write (WriteBatch.setHighestViewEntered view))

/-- The certificate of an `AdvanceView` message that a replica sends is its own highest one, or
one that it has received and checked. -/
def Advances (cr : Crypto) (s : BlockTree) : ProgressCertificate → Prop
  | .phaseCertificate pc => s .highestPc = some pc ∨ pc.isCorrect cr s = .ok true
  | .timeoutCertificate tc => s .highestTc = some tc ∨ tc.isCorrect cr s = .ok true

end BlockTree

namespace Protocol

open BlockTree

/-- The effects that the tree `s` and the effect before allow. -/
inductive Emits (cr : Crypto) (config : Configuration) (apps : App → Prop) (s : BlockTree)
    (last : Option Replica.Effect) : Replica.Effect → Prop
  | insert {block app fuel view appStateUpdates validatorSetUpdates}
      (hcorrect : block.isCorrect cr s = .ok true)
      (hsafe : s.safeBlock block config.chainId = .ok true) (happ : apps app)
      (hview : s.appView fuel block.parent? = .ok view)
      (haccepts : app.Accepts block view appStateUpdates validatorSetUpdates) :
    Emits cr config apps s last
      (.write (s.insertBatch block appStateUpdates validatorSetUpdates))
  | update {justify fuel wb updates} (hupdate : s.updateBatch fuel justify = .ok (wb, updates)) :
    Emits cr config apps s last (.write wb)
  | note {v x} (hv : IsNote v) : Emits cr config apps s last (.write [.set v x])
  | tell {updates} : Emits cr config apps s last (.act (.updateValidatorSet updates))
  | repropose {view block} (hlast : last = enters view) (hleads : s.Leads config view)
      (hrepropose : s.reproposeBlock view = .ok (some block.hash))
      (hblock : s.kv.block block.hash = .ok (some block)) :
    Emits cr config apps s last
      (.act (.broadcast (.progress (.hotStuff (.proposal ⟨config.chainId, view, block⟩)))))
  | propose {view block} (hlast : last = enters view) (hleads : s.Leads config view)
      (hnone : s.reproposeBlock view = .ok none) (hproduces : s.Produces cr apps view block) :
    Emits cr config apps s last
      (.act (.broadcast (.progress (.hotStuff (.proposal ⟨config.chainId, view, block⟩)))))
  | nudge {view justify} (hlast : last = enters view) (hleads : s.Leads config view)
      (hnone : s.reproposeBlock view = .ok none) (hjustify : s .highestPc = some justify)
      (hphase : justify.phase ≠ .generic ∧ justify.phase ≠ .decide) :
    Emits cr config apps s last
      (.act (.broadcast (.progress (.hotStuff (.nudge ⟨config.chainId, view, justify⟩)))))
  | phaseVote {vss recipient view block phase} (hvss : s.kv.validatorSetState = .ok vss)
      (hrecipient : phaseVoteRecipient
        (PhaseVote.new cr config.me config.chainId view block phase) vss = .ok recipient) :
    Emits cr config apps s last
      (.act (.send recipient (.progress (.hotStuff (.phaseVote
        (PhaseVote.new cr config.me config.chainId view block phase))))))
  | newView {peer view pc} (hpc : s .highestPc = some pc) :
    Emits cr config apps s last
      (.act (.send peer (.progress (.hotStuff (.newView ⟨config.chainId, view, pc⟩)))))
  | timeoutVote {view} (hepoch : isEpochChangeView view config.epochLength = .ok true) :
    Emits cr config apps s last
      (.act (.broadcast (.progress (.pacemaker (.timeoutVote ⟨config.chainId, view,
        cr.sign config.me (timeoutVoteBytes config.chainId view), s .highestTc⟩)))))
  | advanceView {certificate} (hcertificate : s.Advances cr certificate) :
    Emits cr config apps s last
      (.act (.broadcast (.progress (.pacemaker (.advanceView ⟨certificate⟩)))))
  | request {peer startHeight}
      (hstart : startHeight.val = (s.committedHeight.map (·.val + 1)).getD 0) :
    Emits cr config apps s last (.act (.send peer (.blockSyncRequest
      { chainId := config.chainId, startHeight, limit := config.blockSyncRequestLimit })))

variable {cr : Crypto} {config : Configuration} {apps : App → Prop}

/-- `m` emits nothing else. -/
abbrev EmitsOnly {M α : Type} (cr : Crypto) (config : Configuration) (apps : App → Prop)
    (I : M → Prop) (m : Process Failure M Action Var.Val α) : Prop :=
  Process.EmitsOnly I (Emits cr config apps) m

/-- A note is not about the validator sets. -/
theorem kv_validatorSetState_note {s : BlockTree} {v : Var} {x : v.Val} (hv : IsNote v)
    {vss : ValidatorSetState} (hvss : s.kv.validatorSetState = .ok vss) :
    (Store.kv (s.write [.set v x])).validatorSetState = .ok vss := by
  rw [kv_validatorSetState_eq_ok] at hvss ⊢
  rwa [write_note hv (by simp [IsNote]), write_note hv (by simp [IsNote]),
    write_note hv (by simp [IsNote]), write_note hv (by simp [IsNote])]

/-! ## HotStuff -/

namespace HotStuff

/-- What the effects of a hotstuff handler depend on in its memory. -/
def Configured (config : Configuration) (hs : HotStuff) : Prop := hs.config = config.hotstuff

variable {fuel : Nat} {app : App} {w : World HotStuff Action Var.Val}

theorem Configured.me_eq {hs : HotStuff} (h : Configured config hs) : hs.config.me = config.me := by
  rw [h]
  rfl

theorem Configured.chainId_eq {hs : HotStuff} (h : Configured config hs) :
    hs.config.chainId = config.chainId := by
  rw [h]
  rfl

theorem emits_stopAccepting (origin : VerifyingKey) :
    EmitsOnly cr config apps (Configured config) (HotStuff.stopAccepting origin) :=
  .bind_mem fun _ h => .setMem fun _ h' => h'.setMem h.1

theorem emits_vote {vss : ValidatorSetState} {justify : PhaseCertificate} {block : CryptoHash}
    {phase : Phase} (h : w.Emitting (Configured config) (Emits cr config apps))
    (hvss : w.tree.kv.validatorSetState = .ok vss) :
    wp (HotStuff.vote cr vss justify block phase)
      (fun _ => Emitting (Configured config) (Emits cr config apps))
      (Emitted (Emits cr config apps)) w := by
  have hemitted := h.emitted
  unfold HotStuff.vote
  simp only [wp_bind, wp_mem, wp_store, wp_ite, wp_pure, wp_lift, HotStuff.send, wp_act, wp_write]
  split
  · refine ⟨fun voted _ => ?_, fun _ _ => hemitted⟩
    split
    · refine ⟨fun recipient hrecipient => ?_, fun _ _ => hemitted⟩
      rw [Configured.me_eq h.1, Configured.chainId_eq h.1] at hrecipient ⊢
      exact (h.emit (.phaseVote hvss hrecipient)).emit (.note (.inr (.inr rfl)))
    · exact h
  · exact h

/-- The write of an update, and what the network is told of it. -/
theorem emits_updateBlockTree {justify : PhaseCertificate}
    (h : w.Emitting (Configured config) (Emits cr config apps)) :
    wp (HotStuff.updateBlockTree fuel justify)
      (fun vss w' => w'.Emitting (Configured config) (Emits cr config apps) ∧
        w'.tree.kv.validatorSetState = .ok vss)
      (Emitted (Emits cr config apps)) w := by
  unfold HotStuff.updateBlockTree
  simp only [wp_bind, wp_store, wp_lift, wp_write]
  refine ⟨fun updated hupdate => ?_, fun _ _ => h.emitted⟩
  obtain ⟨wb, updates⟩ := updated
  have hwritten := h.emit (.update hupdate)
  cases updates with
  | none =>
    simp only [wp_bind, wp_pure, wp_store, wp_lift, wp_mem, wp_setMem]
    exact ⟨fun vss hvss => ⟨hwritten.setMem hwritten.1, hvss⟩, fun _ _ => hwritten.emitted⟩
  | some updates =>
    simp only [wp_bind, wp_act, wp_pure, wp_store, wp_lift, wp_mem, wp_setMem]
    have htold := hwritten.emit (e := .act (.updateValidatorSet updates)) .tell
    exact ⟨fun vss hvss => ⟨htold.setMem htold.1, hvss⟩, fun _ _ => htold.emitted⟩

theorem emits_onReceiveProposal {proposal : Proposal} {origin : VerifyingKey} (happ : apps app) :
    EmitsOnly cr config apps (Configured config)
      (HotStuff.onReceiveProposal cr app fuel proposal origin) := by
  intro w h
  unfold HotStuff.onReceiveProposal
  rw [wp_bind, wp_mem, wp_bind, wp_store, Configured.chainId_eq h.1]
  refine wp_both h.emitted (fun hcorrect hsafe => ?_) (emits_stopAccepting origin w h)
  simp only [Bool.not_true, Bool.false_eq_true, if_false, wp_bind, wp_lift]
  refine ⟨fun view hview => ?_, fun _ _ => h.emitted⟩
  cases hanswer : app.validateBlock proposal.block view with
  | invalid => exact emits_stopAccepting origin w h
  | valid appStateUpdates validatorSetUpdates =>
    simp only [wp_bind, wp_write]
    have hinserted := h.emit (.insert hcorrect hsafe happ hview (.inl hanswer))
    refine wp_mono (emits_updateBlockTree hinserted) (fun vss w' hw' => ?_) fun _ => id
    exact wp_mono (emits_vote hw'.1 hw'.2) (fun _ w'' => emits_stopAccepting origin w'') fun _ => id

theorem emits_onReceiveNudge {nudge : Nudge} {origin : VerifyingKey} :
    EmitsOnly cr config apps (Configured config) (HotStuff.onReceiveNudge cr fuel nudge origin) := by
  intro w h
  unfold HotStuff.onReceiveNudge
  rw [wp_bind, wp_mem, wp_bind, wp_store]
  refine wp_both h.emitted (fun _ _ => ?_) (emits_stopAccepting origin w h)
  simp only [Bool.not_true, Bool.false_eq_true, if_false, wp_bind, wp_lift]
  refine wp_mono (emits_updateBlockTree h) (fun vss w' hw' => ?_) fun _ => id
  exact ⟨fun phase _ => wp_mono (emits_vote hw'.1 hw'.2)
    (fun _ w'' => emits_stopAccepting origin w'') fun _ => id, fun _ _ => hw'.1.emitted⟩

theorem emits_acceptPc {pc : PhaseCertificate} :
    EmitsOnly cr config apps (Configured config) (HotStuff.acceptPc cr fuel pc) := by
  intro w h
  unfold HotStuff.acceptPc
  rw [wp_bind, wp_mem, wp_bind, wp_store]
  refine wp_both h.emitted (fun _ _ => ?_) h
  simp only [if_true, wp_bind, wp_pure]
  exact wp_mono (emits_updateBlockTree h) (fun _ _ hw' => hw'.1) fun _ => id

theorem emits_onReceivePhaseVote {phaseVote : PhaseVote} {signer : VerifyingKey} :
    EmitsOnly cr config apps (Configured config)
      (HotStuff.onReceivePhaseVote cr fuel phaseVote signer) := by
  refine .bind_mem fun w h => .ite (.bind (emitsOnly_lift _) fun collected => ?_) (.pure _)
  obtain ⟨newPc, collectors⟩ := collected
  refine .bind (.setMem fun _ h' => h'.setMem h.1) fun _ => ?_
  cases newPc with
  | none => exact .pure _
  | some newPc => exact emits_acceptPc

theorem emits_onReceiveMsg {msg : HotStuffMessage} {origin : VerifyingKey} (happ : apps app) :
    EmitsOnly cr config apps (Configured config)
      (HotStuff.onReceiveMsg cr app fuel msg origin) := by
  refine .bind .mem fun hs => .bind .store fun tree => ?_
  cases msg with
  | proposal proposal =>
    exact .bind (emitsOnly_lift _) fun _ => .bind (emitsOnly_lift _) fun _ => .bind (.pure _)
      fun _ => .ite (emits_onReceiveProposal happ) (.pure _)
  | nudge nudge =>
    exact .bind (emitsOnly_lift _) fun _ => .bind (emitsOnly_lift _) fun _ => .bind (.pure _)
      fun _ => .ite emits_onReceiveNudge (.pure _)
  | phaseVote phaseVote => exact .bind (.pure _) fun _ => .ite emits_onReceivePhaseVote (.pure _)
  | newView newView => exact .bind (.pure _) fun _ => .ite emits_acceptPc (.pure _)

/-! ### Entering a view -/

/-- The hotstuff part has just taken note of its view, which it leads. -/
structure Leading (cr : Crypto) (config : Configuration) (apps : App → Prop)
    (w : World HotStuff Action Var.Val) : Prop where
  emitting : w.Emitting (Configured config) (Emits cr config apps)
  last : w.effects.getLast? = enters w.mem.viewInfo.view
  leads : BlockTree.Leads w.tree config w.mem.viewInfo.view

theorem emits_repropose {blockHash : CryptoHash} (h : Leading cr config apps w)
    (hrepropose : BlockTree.reproposeBlock w.tree w.mem.viewInfo.view = .ok (some blockHash)) :
    wp (HotStuff.repropose blockHash)
      (fun _ => Emitting (Configured config) (Emits cr config apps))
      (Emitted (Emits cr config apps)) w := by
  unfold HotStuff.repropose
  simp only [wp_bind, wp_mem, wp_store, wp_lift]
  refine ⟨fun block? hblock => ?_, fun _ _ => h.emitting.emitted⟩
  cases block? with
  | none => exact h.emitting.emitted
  | some block =>
    obtain ⟨rfl, -, -⟩ := fields_of_block hblock
    rw [Configured.chainId_eq h.emitting.1]
    exact h.emitting.emit (.repropose h.last h.leads hrepropose hblock)

theorem emits_proposeNew {highestPc : PhaseCertificate} (happ : apps app)
    (h : Leading cr config apps w)
    (hnone : BlockTree.reproposeBlock w.tree w.mem.viewInfo.view = .ok none)
    (hhighest : w.tree .highestPc = some highestPc)
    (hphase : highestPc.phase = .generic ∨ highestPc.phase = .decide) :
    wp (HotStuff.proposeNew cr app fuel highestPc)
      (fun _ => Emitting (Configured config) (Emits cr config apps))
      (Emitted (Emits cr config apps)) w := by
  have htail : ∀ (parent : Option CryptoHash) (childHeight : BlockHeight),
      parent = (if highestPc.isGenesisPc then none else some highestPc.block) →
      BlockTree.childHeight w.tree highestPc = some childHeight.val → wp (do
        let view ← lift (BlockTree.appView w.tree fuel parent)
        let made := app.produceBlock w.mem.viewInfo.view parent view
        let block ← lift (Block.new cr childHeight highestPc made.1 made.2)
        HotStuff.broadcast
          (.proposal { chainId := w.mem.config.chainId, view := w.mem.viewInfo.view, block }))
      (fun _ => Emitting (Configured config) (Emits cr config apps))
      (Emitted (Emits cr config apps)) w := by
    rintro parent childHeight rfl hheight
    rw [wp_bind, wp_lift]
    refine ⟨fun view hview => ?_, fun _ _ => h.emitting.emitted⟩
    dsimp only
    rw [wp_bind, wp_lift]
    refine ⟨fun block hblock => ?_, fun _ _ => h.emitting.emitted⟩
    obtain ⟨rfl, rfl⟩ := Block.of_new hblock
    rw [Configured.chainId_eq h.emitting.1]
    refine h.emitting.emit (.propose h.last h.leads hnone ⟨hhighest, hphase, hheight, app, fuel, view,
      happ, hview, ?_⟩)
    exact hblock
  unfold HotStuff.proposeNew
  rw [wp_bind, wp_mem, wp_bind, wp_store]
  split
  · rename_i hgenesis
    rw [wp_bind, wp_pure]
    exact htail none 0 (by rw [if_pos hgenesis]) (by rw [childHeight, if_pos hgenesis]; rfl)
  · rename_i hgenesis
    rw [wp_bind, wp_lift]
    refine ⟨fun parentHeight hparent => ?_, fun _ _ => h.emitting.emitted⟩
    rw [kv_blockHeight, Except.ok.injEq] at hparent
    cases parentHeight with
    | none => exact h.emitting.emitted
    | some parentHeight =>
      rw [wp_bind, wp_lift]
      refine ⟨fun height hchild => ?_, fun _ _ => h.emitting.emitted⟩
      refine htail (some highestPc.block) height (by rw [if_neg hgenesis]) ?_
      rw [childHeight, if_neg hgenesis, hparent, Option.map_some, ← U64.add_eq_ok.mp hchild]
      rfl

theorem emits_propose (happ : apps app) (h : Leading cr config apps w) :
    wp (HotStuff.propose cr app fuel)
      (fun _ => Emitting (Configured config) (Emits cr config apps))
      (Emitted (Emits cr config apps)) w := by
  unfold HotStuff.propose
  simp only [wp_bind, wp_mem, wp_store, wp_lift]
  refine ⟨fun reproposed hrepropose => ?_, fun _ _ => h.emitting.emitted⟩
  cases reproposed with
  | some blockHash => exact emits_repropose h hrepropose
  | none =>
    rw [wp_bind, wp_lift]
    refine ⟨fun highestPc hhighest => ?_, fun _ _ => h.emitting.emitted⟩
    rw [kv_highestPc_eq_ok] at hhighest
    have hnudge : highestPc.phase ≠ .generic ∧ highestPc.phase ≠ .decide →
        wp (HotStuff.broadcast (.nudge
          { chainId := w.mem.config.chainId, view := w.mem.viewInfo.view, justify := highestPc }))
          (fun _ => Emitting (Configured config) (Emits cr config apps))
          (Emitted (Emits cr config apps)) w := by
      intro hphase
      rw [Configured.chainId_eq h.emitting.1]
      exact h.emitting.emit (.nudge h.last h.leads hrepropose hhighest hphase)
    cases hphase : highestPc.phase with
    | generic => exact emits_proposeNew happ h hrepropose hhighest (.inl hphase)
    | decide => exact emits_proposeNew happ h hrepropose hhighest (.inr hphase)
    | prepare | precommit | commit => exact hnudge (by simp [hphase])

/-- A `NewView` message does not change the tree. -/
theorem emits_sendNewView {vss : ValidatorSetState}
    (h : w.Emitting (Configured config) (Emits cr config apps)) :
    wp (HotStuff.sendNewView vss)
      (fun _ w' => w'.Emitting (Configured config) (Emits cr config apps) ∧ w'.tree = w.tree)
      (Emitted (Emits cr config apps)) w := by
  unfold HotStuff.sendNewView
  simp only [wp_bind, wp_mem, wp_store, wp_lift, HotStuff.send, wp_act]
  refine ⟨fun highestPc hhighest => ⟨fun recipients _ => ?_, fun _ _ => h.emitted⟩,
    fun _ _ => h.emitted⟩
  obtain ⟨committedVsLeader, prevVsLeader⟩ := recipients
  rw [kv_highestPc_eq_ok] at hhighest
  rw [Configured.chainId_eq h.1]
  have hsent := h.emit (e := .act (.send committedVsLeader (.progress (.hotStuff (.newView
    ⟨config.chainId, w.mem.viewInfo.view, highestPc⟩))))) (.newView hhighest)
  cases prevVsLeader with
  | none => exact ⟨hsent, World.tree_emit ..⟩
  | some prevVsLeader =>
    refine ⟨hsent.emit (.newView ?_), ?_⟩
    · rw [World.tree_emit, Store.perform_act]
      exact hhighest
    · rw [World.tree_emit, World.tree_emit]
      rfl

theorem emits_enterView {newViewInfo : ViewInfo} (happ : apps app) :
    EmitsOnly cr config apps (Configured config) (HotStuff.enterView cr app fuel newViewInfo) := by
  intro w h
  unfold HotStuff.enterView
  simp only [wp_bind, wp_store, wp_lift]
  refine ⟨fun vss hvss => ?_, fun _ _ => h.emitted⟩
  refine wp_mono (emits_sendNewView h) (fun _ w' hw' => ?_) fun _ => id
  simp only [wp_mem, wp_setMem, wp_write, wp_ite, wp_pure]
  have hnoted := (hw'.1.setMem (m := { w'.mem with
    viewInfo := newViewInfo
    proposalStatus := .waitingForProposal
    phaseVoteCollectors := ActiveCollectorPair.new w'.mem.config.chainId newViewInfo.view vss })
    hw'.1.1).emit (e := .write (WriteBatch.setHighestViewEntered newViewInfo.view))
    (.note (.inl rfl))
  refine ⟨fun leads hleads => ?_, fun _ _ => hnoted.emitted⟩
  split
  · rename_i htrue
    rw [htrue, Configured.me_eq hw'.1.1] at hleads
    refine emits_propose happ ⟨hnoted, List.getLast?_concat, vss, ?_, hleads⟩
    rw [World.tree_emit, World.tree_setMem, Store.perform_write, hw'.2]
    exact kv_validatorSetState_note (.inl rfl) hvss
  · exact hnoted

end HotStuff

/-! ## The pacemaker -/

namespace Pacemaker

def Configured (config : Configuration) (pm : Pacemaker) : Prop := pm.config = config.pacemaker

variable {now : Instant} {vss : ValidatorSetState} {w : World Pacemaker Action Var.Val}

theorem Configured.me_eq {pm : Pacemaker} (h : Configured config pm) : pm.config.me = config.me := by
  rw [h]
  rfl

theorem Configured.chainId_eq {pm : Pacemaker} (h : Configured config pm) :
    pm.config.chainId = config.chainId := by
  rw [h]
  rfl

theorem Configured.epochLength_eq {pm : Pacemaker} (h : Configured config pm) :
    pm.config.epochLength = config.epochLength := by
  rw [h]
  rfl

theorem emits_updateView {nextView : ViewNumber} :
    EmitsOnly cr config apps (Configured config) (Pacemaker.updateView nextView vss now) := by
  refine .bind_mem fun w h => .ite (emitsOnly_throw _) ?_
  refine .bind (emitsOnly_lift _) fun curEpoch => .bind (emitsOnly_lift _) fun nextEpoch => .ite ?_ ?_
  · exact .bind (emitsOnly_lift _) fun state => .bind (emitsOnly_lift _) fun deadline =>
      .setMem fun _ h' => h'.setMem h.1
  · exact .bind (.pure _) fun state => .bind (emitsOnly_lift _) fun deadline =>
      .setMem fun _ h' => h'.setMem h.1

theorem emits_extendView :
    EmitsOnly cr config apps (Configured config) (Pacemaker.extendView now) :=
  .bind_mem fun _ h => .bind (emitsOnly_lift _) fun _ => .ite (emitsOnly_throw _)
    (.bind (emitsOnly_lift _) fun _ => .setMem fun _ h' => h'.setMem h.1)

theorem emits_advance {certificate : ProgressCertificate}
    (h : w.Emitting (Configured config) (Emits cr config apps))
    (hcertificate : BlockTree.Advances cr w.tree certificate) :
    wp (Pacemaker.advance certificate) (fun _ => Emitting (Configured config) (Emits cr config apps))
      (Emitted (Emits cr config apps)) w := by
  unfold Pacemaker.advance Pacemaker.broadcast
  simp only [wp_bind, wp_act, wp_mem, wp_setMem]
  exact (h.emit (.advanceView hcertificate)).setMem h.1

theorem emits_onTimeout :
    EmitsOnly cr config apps (Configured config) (Pacemaker.onTimeout cr now vss) := by
  intro w h
  unfold Pacemaker.onTimeout Pacemaker.broadcast
  simp only [wp_bind, wp_mem, wp_store, wp_lift, wp_ite, wp_act]
  refine ⟨fun isEpochChange hepoch => ?_, fun _ _ => h.emitted⟩
  split
  · rename_i htrue
    split
    · refine ⟨fun highestTc hhighest => ?_, fun _ _ => h.emitted⟩
      rw [kv_highestTc, Except.ok.injEq] at hhighest
      rw [htrue, Configured.epochLength_eq h.1] at hepoch
      rw [Configured.me_eq h.1, Configured.chainId_eq h.1, ← hhighest]
      exact emits_extendView _ (h.emit (.timeoutVote hepoch))
    · exact emits_extendView _ h
  · exact ⟨fun nextView _ => emits_updateView _ h, fun _ _ => h.emitted⟩

theorem emits_tick : EmitsOnly cr config apps (Configured config) (Pacemaker.tick cr now) := by
  intro w h
  unfold Pacemaker.tick
  simp only [wp_bind, wp_mem, wp_store, wp_lift, wp_ite, wp_setMem, wp_pure]
  refine ⟨fun vss _ => ?_, fun _ _ => h.emitted⟩
  split
  · exact emits_onTimeout _ h
  · have hcollectors := h.setMem (m := { w.mem with state := { w.mem.state with
      timeoutVoteCollectors := (w.mem.state.timeoutVoteCollectors.updateValidatorSets vss).1 } }) h.1
    refine ⟨fun highestPc hhighest => ?_, fun _ _ => hcollectors.emitted⟩
    rw [kv_highestPc_eq_ok] at hhighest
    split
    · exact emits_advance hcollectors (.inl hhighest)
    · exact hcollectors

theorem emits_onCollectTc {newTc : TimeoutCertificate} :
    EmitsOnly cr config apps (Configured config) (Pacemaker.onCollectTc vss newTc) := by
  intro w h
  unfold Pacemaker.onCollectTc
  simp only [wp_bind, wp_mem, wp_store, wp_lift, wp_ite, wp_write, wp_pure]
  refine ⟨fun isHigher _ => ?_, fun _ _ => h.emitted⟩
  split
  · have hnoted := h.emit (e := .write (WriteBatch.setHighestTc newTc)) (.note (.inr (.inl rfl)))
    split
    · refine emits_advance hnoted (.inl ?_)
      rw [World.tree_emit]
      exact Store.apply_set w.tree Var.highestTc newTc
    · exact hnoted
  · exact h

theorem emits_onFallbackTc {tc : TimeoutCertificate} :
    EmitsOnly cr config apps (Configured config) (Pacemaker.onFallbackTc now vss tc) := by
  intro w h
  unfold Pacemaker.onFallbackTc
  simp only [wp_bind, wp_store, wp_lift, wp_ite, wp_write, wp_pure]
  refine ⟨fun isHigher _ => ?_, fun _ _ => h.emitted⟩
  split
  · have hnoted := h.emit (e := .write (WriteBatch.setHighestTc tc)) (.note (.inr (.inl rfl)))
    exact ⟨fun nextView _ => emits_updateView _ hnoted, fun _ _ => hnoted.emitted⟩
  · exact h

theorem emits_onReceiveTimeoutVote {timeoutVote : TimeoutVote} {origin : VerifyingKey} :
    EmitsOnly cr config apps (Configured config)
      (Pacemaker.onReceiveTimeoutVote cr now timeoutVote origin) := by
  refine .bind_mem fun w h => .bind .store fun tree => .bind (emitsOnly_lift _) fun vss =>
    .ite (.bind (emitsOnly_lift _) fun isEpochChange => .ite ?_ (.pure _)) (.pure _)
  refine .bind (emitsOnly_lift _) fun fallbackTc => .bind (emitsOnly_lift _) fun collected => ?_
  obtain ⟨newTc, collectors⟩ := collected
  refine .bind (.setMem fun _ h' => h'.setMem h.1) fun _ => ?_
  cases newTc with
  | some newTc => exact emits_onCollectTc
  | none =>
    cases fallbackTc with
    | some tc => exact emits_onFallbackTc
    | none => exact .pure _

/-- What moves a replica to another view is a correct certificate, also after the highest
timeout certificate is noted. -/
theorem advances_of_isValidCertificate {tree : BlockTree} {epochLength : U32}
    {certificate : ProgressCertificate}
    (h : Pacemaker.isValidCertificate cr tree epochLength certificate = .ok true) :
    tree.Advances cr certificate := by
  cases certificate with
  | phaseCertificate pc => exact .inr h
  | timeoutCertificate tc =>
    obtain ⟨isCorrect, hcorrect, h⟩ := Result.bind_eq_ok.mp h
    cases isCorrect with
    | true => exact .inr hcorrect
    | false => cases h

theorem emits_updateHighestTc {certificate : ProgressCertificate}
    (h : w.Emitting (Configured config) (Emits cr config apps))
    (hadvances : BlockTree.Advances cr w.tree certificate) :
    wp (Pacemaker.updateHighestTc certificate)
      (fun _ w' => w'.Emitting (Configured config) (Emits cr config apps) ∧
        BlockTree.Advances cr w'.tree certificate)
      (Emitted (Emits cr config apps)) w := by
  cases certificate with
  | phaseCertificate pc => exact ⟨h, hadvances⟩
  | timeoutCertificate tc =>
    simp only [Pacemaker.updateHighestTc, wp_bind, wp_store, wp_lift, wp_ite, wp_write, wp_pure]
    refine ⟨fun isHigher _ => ?_, fun _ _ => h.emitted⟩
    split
    · refine ⟨h.emit (.note (.inr (.inl rfl))), .inl ?_⟩
      rw [World.tree_emit]
      exact Store.apply_set w.tree Var.highestTc tc
    · exact ⟨h, hadvances⟩

theorem emits_onReceiveAdvanceView {advanceView : AdvanceView} {origin : VerifyingKey} :
    EmitsOnly cr config apps (Configured config)
      (Pacemaker.onReceiveAdvanceView cr now advanceView origin) := by
  intro w h
  unfold Pacemaker.onReceiveAdvanceView
  simp only [wp_bind, wp_mem, wp_store, wp_lift, wp_ite, wp_pure]
  refine ⟨fun vss _ => ?_, fun _ _ => h.emitted⟩
  split
  · refine ⟨fun isValid hvalid => ?_, fun _ _ => h.emitted⟩
    split
    · rename_i htrue
      rw [htrue] at hvalid
      refine wp_mono (emits_updateHighestTc h (advances_of_isValidCertificate hvalid))
        (fun _ w' hw' => ?_) fun _ => id
      split
      · exact wp_mono (emits_advance hw'.1 hw'.2)
          (fun _ w'' hw'' => ⟨fun _ _ => emits_updateView _ hw'', fun _ _ => hw''.emitted⟩)
          fun _ => id
      · exact ⟨fun _ _ => emits_updateView _ hw'.1, fun _ _ => hw'.1.emitted⟩
    · exact h
  · exact h

theorem emits_onReceiveMsg {msg : PacemakerMessage} {origin : VerifyingKey} :
    EmitsOnly cr config apps (Configured config) (Pacemaker.onReceiveMsg cr now msg origin) := by
  cases msg with
  | timeoutVote timeoutVote => exact emits_onReceiveTimeoutVote
  | advanceView advanceView => exact emits_onReceiveAdvanceView

end Pacemaker

/-! ## The block sync client -/

namespace BlockSyncClient

def Configured (config : Configuration) (client : BlockSyncClient) : Prop :=
  client.config = config.blockSyncClient

variable {now : Instant} {app : App} {fuel : Nat} {peer : VerifyingKey}

theorem Configured.chainId_eq {client : BlockSyncClient} (h : Configured config client) :
    client.config.chainId = config.chainId := by
  rw [h]
  rfl

theorem emits_blacklist :
    EmitsOnly cr config apps (Configured config) (BlockSyncClient.blacklist now peer) :=
  .bind_mem fun _ h => .bind (emitsOnly_lift _) fun _ =>
    .bind (.setMem fun _ h' => h'.setMem h.1) fun _ => .pure _

theorem emits_endSync {initHeight : BlockHeight} {blocksSynced : Nat} :
    EmitsOnly cr config apps (Configured config)
      (BlockSyncClient.endSync now peer initHeight blocksSynced) :=
  .bind .mem fun _ => .bind (emitsOnly_lift _) fun _ => .bind (emitsOnly_lift _) fun _ =>
    .ite emits_blacklist (.pure _)

theorem emits_responseDeadline :
    EmitsOnly cr config apps (Configured config) (BlockSyncClient.responseDeadline now) :=
  .bind .mem fun _ => emitsOnly_lift _

theorem emits_sendRequest :
    EmitsOnly cr config apps (Configured config) (BlockSyncClient.sendRequest peer) := by
  intro w h
  have hlimit : w.mem.config.requestLimit = config.blockSyncRequestLimit := by
    rw [h.1]
    rfl
  unfold BlockSyncClient.sendRequest
  simp only [wp_bind, wp_mem, wp_store, wp_lift]
  refine ⟨fun height? hheight => ?_, fun _ _ => h.emitted⟩
  rw [kv_highestCommittedBlockHeight, Except.ok.injEq] at hheight
  cases height? with
  | none =>
    simp only [wp_bind, wp_pure, wp_act]
    rw [Configured.chainId_eq h.1, hlimit]
    exact h.emit (.request (by rw [hheight]; rfl))
  | some height =>
    simp only [wp_bind, wp_lift, wp_act]
    refine ⟨fun startHeight hstart => ?_, fun _ _ => h.emitted⟩
    rw [Configured.chainId_eq h.1, hlimit]
    exact h.emit (.request (by rw [hheight, ← U64.add_eq_ok.mp hstart]; rfl))

theorem emits_updateWithHighestPc {highestPc : PhaseCertificate} :
    EmitsOnly cr config apps (Configured config)
      (BlockSyncClient.updateWithHighestPc cr fuel highestPc) := by
  intro w h
  unfold BlockSyncClient.updateWithHighestPc
  rw [wp_bind, wp_mem, wp_bind, wp_store]
  refine wp_both h.emitted (fun _ _ => ?_) h
  simp only [if_true, wp_bind, wp_lift]
  refine ⟨fun updated hupdate => ?_, fun _ _ => h.emitted⟩
  obtain ⟨wb, updates⟩ := updated
  exact h.emit (.update hupdate)

theorem emits_syncBlock {block : Block} (happ : apps app) :
    EmitsOnly cr config apps (Configured config)
      (BlockSyncClient.syncBlock cr app fuel block) := by
  intro w h
  unfold BlockSyncClient.syncBlock
  rw [wp_bind, wp_mem, wp_bind, wp_store, Configured.chainId_eq h.1]
  refine wp_both h.emitted (fun hcorrect hsafe => ?_) h
  simp only [Bool.not_true, Bool.false_eq_true, if_false, wp_bind, wp_lift]
  refine ⟨fun view hview => ?_, fun _ _ => h.emitted⟩
  cases hanswer : app.validateBlockForSync block view with
  | invalid => exact h
  | valid appStateUpdates validatorSetUpdates =>
    simp only [wp_bind, wp_write, wp_store, wp_lift]
    have hinserted := h.emit (.insert hcorrect hsafe happ hview (.inr hanswer))
    refine ⟨fun updated hupdate => ?_, fun _ _ => hinserted.emitted⟩
    obtain ⟨wb, updates⟩ := updated
    have hupdated := hinserted.emit (.update hupdate)
    cases updates with
    | none => exact hupdated
    | some updates => exact hupdated.emit .tell

theorem emits_syncBlocks {highestPc : PhaseCertificate} (happ : apps app) (blocks : List Block) :
    ∀ blocksSynced, EmitsOnly cr config apps (Configured config)
      (BlockSyncClient.syncBlocks cr app fuel highestPc blocks blocksSynced) := by
  induction blocks with
  | nil => exact fun _ => .pure _
  | cons block rest ih =>
    exact fun _ => .bind (emits_syncBlock happ) fun accepted =>
      .ite (.bind emits_updateWithHighestPc fun _ => ih _) (.pure _)

theorem emits_syncLoop {initHeight : BlockHeight} (happ : apps app)
    (responses : List BlockSyncResponse) :
    ∀ blocksSynced, EmitsOnly cr config apps (Configured config)
      (BlockSyncClient.syncLoop cr app fuel now peer initHeight responses blocksSynced) := by
  induction responses with
  | nil =>
    exact fun _ => .bind emits_sendRequest fun _ => .bind emits_responseDeadline fun _ =>
      emits_endSync
  | cons response responses ih =>
    exact fun _ => .bind emits_sendRequest fun _ => .bind emits_responseDeadline fun _ =>
      .bind .store fun tree => .ite emits_endSync
        (.bind (emits_syncBlocks happ _ _) fun _ => .ite (ih _) emits_blacklist)

theorem emits_sync {choice : Nat} {responses : List BlockSyncResponse} (happ : apps app) :
    EmitsOnly cr config apps (Configured config)
      (BlockSyncClient.sync cr app fuel now choice responses) := by
  have htail : EmitsOnly cr config apps (Configured config) (do
      let client ← (mem : BlockSyncClient.Handler _)
      setMem { client with state := { client.state with lastProgressOrSyncTime := now } }) :=
    .bind_mem fun _ h => .setMem fun _ h' => h'.setMem h.1
  refine .bind .mem fun client => .bind .store fun tree => .bind (emitsOnly_lift _) fun minHeight => ?_
  dsimp only
  split
  · refine .bind (.bind .store fun tree => .bind (emitsOnly_lift _) fun initHeight => ?_)
      fun _ => htail
    exact emits_syncLoop happ _ _
  · exact htail

theorem emits_onReceiveMsg {msg : BlockSyncAdvertiseMessage} {origin : VerifyingKey}
    {choice : Nat} {responses : List BlockSyncResponse} (happ : apps app) :
    EmitsOnly cr config apps (Configured config)
      (BlockSyncClient.onReceiveMsg cr app fuel now msg origin choice responses) := by
  cases msg with
  | advertiseBlock msg =>
    exact .bind_mem fun _ h => .bind .store fun tree => .ite (.pure _) <|
      .bind (emitsOnly_lift _) fun isServer => .ite (.pure _) (.setMem fun _ h' => h'.setMem h.1)
  | advertisePc msg =>
    exact .bind .mem fun _ => .bind .store fun tree => .bind (emitsOnly_lift _) fun entered =>
      .ite (.pure _) <| .bind (emitsOnly_lift _) fun difference =>
        .ite (.bind (emitsOnly_lift _) fun isCorrect => .ite (emits_sync happ) (.pure _)) (.pure _)

theorem emits_tick {choice : Nat} {responses : List BlockSyncResponse} (happ : apps app) :
    EmitsOnly cr config apps (Configured config)
      (BlockSyncClient.tick cr app fuel now choice responses) :=
  .bind_mem fun _ h => .bind .store fun _ => .bind (emitsOnly_lift _) fun _ =>
    .bind (.setMem fun _ h' => h'.setMem h.1) fun _ => .ite (emits_sync happ) (.pure _)

end BlockSyncClient

/-! ## Runs -/

/-- All parts of a replica are configured alike. -/
structure ConfiguredAlike (config : Configuration) (alg : Algorithm) : Prop where
  hotstuff : HotStuff.Configured config alg.hotstuff
  pacemaker : Pacemaker.Configured config alg.pacemaker
  blockSyncClient : BlockSyncClient.Configured config alg.blockSyncClient

variable {fuel : Nat} {input : Input}

theorem emits_onHotStuff {h : HotStuff.Handler Unit}
    (hh : EmitsOnly cr config apps (HotStuff.Configured config) h) :
    EmitsOnly cr config apps (ConfiguredAlike config) (Algorithm.onHotStuff h) :=
  emitsOnly_zoom hh (fun _ halike => halike.hotstuff) fun _ _ hconfigured halike =>
    ⟨hconfigured, halike.pacemaker, halike.blockSyncClient⟩

theorem emits_onPacemaker {h : Pacemaker.Handler Unit}
    (hh : EmitsOnly cr config apps (Pacemaker.Configured config) h) :
    EmitsOnly cr config apps (ConfiguredAlike config) (Algorithm.onPacemaker h) :=
  emitsOnly_zoom hh (fun _ halike => halike.pacemaker) fun _ _ hconfigured halike =>
    ⟨halike.hotstuff, hconfigured, halike.blockSyncClient⟩

theorem emits_onBlockSyncClient {h : BlockSyncClient.Handler Unit}
    (hh : EmitsOnly cr config apps (BlockSyncClient.Configured config) h) :
    EmitsOnly cr config apps (ConfiguredAlike config) (Algorithm.onBlockSyncClient h) :=
  emitsOnly_zoom hh (fun _ halike => halike.blockSyncClient) fun _ _ hconfigured halike =>
    ⟨halike.hotstuff, halike.pacemaker, hconfigured⟩

theorem emits_receive (happ : apps input.app) :
    EmitsOnly cr config apps (ConfiguredAlike config) (Algorithm.receive cr fuel input) := by
  refine .bind .mem fun alg => ?_
  cases input.message with
  | none => exact .pure _
  | some message =>
    obtain ⟨origin, msg⟩ := message
    refine .ite ?_ (.pure _)
    cases msg with
    | hotStuff msg => exact emits_onHotStuff (HotStuff.emits_onReceiveMsg happ)
    | pacemaker msg => exact emits_onPacemaker Pacemaker.emits_onReceiveMsg
    | blockSyncAdvertise msg => exact emits_onBlockSyncClient (BlockSyncClient.emits_onReceiveMsg happ)

/-- One iteration of the algorithm thread emits nothing else. -/
theorem emits_iterate (happ : apps input.app) :
    EmitsOnly cr config apps (ConfiguredAlike config) (Algorithm.iterate cr fuel input) :=
  .bind (emits_onPacemaker Pacemaker.emits_tick) fun _ =>
    .bind (.bind .mem fun _ => .ite (emits_onHotStuff (HotStuff.emits_enterView happ)) (.pure _))
      fun _ => .bind (emits_receive happ) fun _ =>
        emits_onBlockSyncClient (BlockSyncClient.emits_tick happ)

theorem start_configuredAlike {s : BlockTree} {now : Instant} {r : Replica}
    (h : Replica.start config s now = .ok r) : ConfiguredAlike config r.alg := by
  simp only [Replica.start, Algorithm.new, Pacemaker.new, Result.bind_eq_ok, Result.pure_eq,
    Except.ok.injEq] at h
  obtain ⟨alg, ⟨view, -, vss, -, pm, ⟨state, -, deadline, -, rfl⟩, rfl⟩, rfl⟩ := h
  exact ⟨rfl, rfl, rfl⟩

variable {s₀ : BlockTree} {log : List Event} {r : Replica}

theorem run_configuredAlike (run : Run cr config apps s₀ log r) : ConfiguredAlike config r.alg := by
  induction run with
  | start hstart => exact start_configuredAlike hstart
  | iterate run happ hok ih =>
    exact (wp_ok (emits_iterate happ _ ⟨ih, Emitted.of_nil rfl⟩) hok).1
  | restart run happ hcrash hstart ih => exact start_configuredAlike hstart

theorem emitted_iterated (fuel : Nat) (run : Run cr config apps s₀ log r) (happ : apps input.app) :
    (r.iterated cr fuel input).base = r.tree ∧
      (r.iterated cr fuel input).Emitted (Emits cr config apps) := by
  obtain ⟨a, htree, -, hready⟩ := (run_tracks run).ready
  have hallowed : wp (Algorithm.iterate cr fuel input) _ _ _ := keeps_iterate happ _ hready
  have hemits : wp (Algorithm.iterate cr fuel input) _ _ _ := emits_iterate happ
    { mem := r.alg, base := r.tree, effects := [] } ⟨run_configuredAlike run, Emitted.of_nil rfl⟩
  unfold Replica.iterated Replica.run
  cases hrun : Algorithm.iterate cr fuel input { mem := r.alg, base := r.tree, effects := [] } with
  | ok _ w =>
    obtain ⟨v, st, hat⟩ := (wp_ok hallowed hrun).allowed
    exact ⟨hat.1.symm.trans htree, (wp_ok hemits hrun).2⟩
  | error _ w =>
    obtain ⟨v, st, hat⟩ := wp_error hallowed hrun
    exact ⟨hat.1.symm.trans htree, wp_error hemits hrun⟩

/-- A replica emits all effects of `log`.  Within an iteration, the effect before one is the
event before it. -/
def EmitsAll (cr : Crypto) (config : Configuration) (apps : App → Prop) (s₀ : BlockTree)
    (log : List Event) : Prop :=
  ∀ before e, before ++ [.effect e] <+: log → ∃ last,
    (∀ e' ∈ last, before.getLast? = some (.effect e')) ∧
      Emits cr config apps (s₀.replay before) last e

namespace EmitsAll

theorem nil : EmitsAll cr config apps s₀ [] := by
  intro before e hbefore
  have hnil := List.prefix_nil.mp hbefore
  simp at hnil

theorem of_isPrefix {log' : List Event} (h : EmitsAll cr config apps s₀ log) (hlog : log' <+: log) :
    EmitsAll cr config apps s₀ log' :=
  fun before e hbefore => h before e (hbefore.trans hlog)

theorem crash (h : EmitsAll cr config apps s₀ log) :
    EmitsAll cr config apps s₀ (log ++ [.crash]) := by
  intro before e hbefore
  rcases List.prefix_concat_iff.mp hbefore with heq | hbefore
  · have hlast := (List.append_inj' heq rfl).2
    cases hlast
  · exact h before e hbefore

/-- The effects of an iteration go on where the log ends. -/
theorem append (h : EmitsAll cr config apps s₀ log) {effects : List Replica.Effect}
    (heffects : ∀ before e, before ++ [e] <+: effects →
      Emits cr config apps (Store.replay (s₀.replay log) before) before.getLast? e) :
    EmitsAll cr config apps s₀ (log ++ effects.map .effect) := by
  induction effects using List.reverseRecOn with
  | nil => simpa using h
  | append_singleton effects e ih =>
    have hbefore := ih fun before e' hbefore =>
      heffects before e' (hbefore.trans (List.prefix_append ..))
    intro before e' hlog
    rw [List.map_append, List.map_singleton, ← List.append_assoc] at hlog
    rcases List.prefix_concat_iff.mp hlog with heq | hlog
    · obtain ⟨rfl, hlast⟩ := List.append_inj' heq rfl
      obtain rfl := Event.effect.inj (List.cons.inj hlast).1
      refine ⟨effects.getLast?, fun e'' he'' => ?_, ?_⟩
      · obtain ⟨init, rfl⟩ := List.getLast?_eq_some_iff.mp he''
        rw [List.map_append, List.map_singleton, ← List.append_assoc, List.getLast?_concat]
      · rw [replay_append, replay_effects]
        exact heffects effects e' List.prefix_rfl
    · exact hbefore before e' hlog

end EmitsAll

theorem emitsAll_of_run (run : Run cr config apps s₀ log r) : EmitsAll cr config apps s₀ log := by
  induction run with
  | start => exact .nil
  | @iterate log r fuel input w run happ hok ih =>
    refine ih.append fun before e hbefore => ?_
    obtain ⟨hbase, hemitted⟩ := emitted_iterated fuel run happ
    rw [Replica.iterated, hok] at hbase hemitted
    rw [← run.tree_eq, ← hbase]
    exact hemitted before e hbefore
  | @restart log r fuel input effects r' now run happ hcrash hstart ih =>
    refine (ih.append fun before e hbefore => ?_).crash
    obtain ⟨hbase, hemitted⟩ := emitted_iterated fuel run happ
    rw [← run.tree_eq, ← hbase]
    exact hemitted before e (hbefore.trans hcrash)

theorem emitsAll_of_history (h : History cr config apps s₀ log) :
    EmitsAll cr config apps s₀ log := by
  obtain ⟨log', r, fuel, input, effects, run, happ, heffects, rfl⟩ := h
  refine (emitsAll_of_run run).append fun before e hbefore => ?_
  obtain ⟨hbase, hemitted⟩ := emitted_iterated fuel run happ
  rw [← run.tree_eq, ← hbase]
  exact hemitted before e (hbefore.trans heffects)

end Protocol
end HotStuffRs
