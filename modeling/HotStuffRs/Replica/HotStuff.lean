import HotStuffRs.BlockTree.Getters
import HotStuffRs.Replica.Protocol

namespace HotStuffRs
namespace Protocol

open Kv Kv.Process Lts

variable {cr : Crypto} {config : Configuration} {apps : App → Prop}
variable {M : Type} {w : World M Action Var.Val}

/-- The effects of `w` lead the protocol from `a` to view `v` and stage `st`. -/
def At (cr : Crypto) (config : Configuration) (apps : App → Prop) (a : State) (v : ViewNumber)
    (st : Stage) (w : World M Action Var.Val) : Prop :=
  a.tree = w.base ∧ Path (Step cr config apps) a (w.effects.map .effect) ⟨w.tree, v, st⟩

/-- The effects of `w` are such as the protocol allows from `a` on. -/
def Allowed (cr : Crypto) (config : Configuration) (apps : App → Prop) (a : State)
    (w : World M Action Var.Val) : Prop :=
  ∃ v st, At cr config apps a v st w

/-- As `Allowed`, without going beyond view `v`. -/
def AllowedUpTo (cr : Crypto) (config : Configuration) (apps : App → Prop) (a : State)
    (v : ViewNumber) (w : World M Action Var.Val) : Prop :=
  ∃ v' ≤ v, ∃ st, At cr config apps a v' st w

theorem AllowedUpTo.mono {a : State} {v v' : ViewNumber}
    (h : AllowedUpTo cr config apps a v w) (hle : v ≤ v') : AllowedUpTo cr config apps a v' w :=
  let ⟨v'', hv'', hat⟩ := h
  ⟨v'', hv''.trans hle, hat⟩

namespace At

variable {a : State} {v : ViewNumber} {st : Stage}

theorem allowed (h : At cr config apps a v st w) : AllowedUpTo cr config apps a v w :=
  ⟨v, le_rfl, st, h⟩

/-- What is in memory does not matter. -/
theorem congr {N : Type} (h : At cr config apps a v st w) {w' : World N Action Var.Val}
    (hbase : w'.base = w.base) (heffects : w'.effects = w.effects) :
    At cr config apps a v st w' := by
  have htree : w'.tree = w.tree := by
    rw [World.tree, World.tree, hbase, heffects]
  refine ⟨hbase ▸ h.1, ?_⟩
  rw [heffects, htree]
  exact h.2

theorem setMem (h : At cr config apps a v st w) (m : M) :
    At cr config apps a v st (w.setMem m) :=
  h.congr rfl rfl

theorem emit (h : At cr config apps a v st w) {e : Replica.Effect} {v' : ViewNumber} {st' : Stage}
    (hstep : Step cr config apps ⟨w.tree, v, st⟩ (.effect e) ⟨w.tree.perform e, v', st'⟩) :
    At cr config apps a v' st' (w.emit e) := by
  refine ⟨h.1, ?_⟩
  rw [World.effects_emit, List.map_append, World.tree_emit]
  exact h.2.snoc hstep

theorem act (h : At cr config apps a v st w) {x : Action} (hx : x.phaseVote? = none) :
    At cr config apps a v st (w.emit (.act x)) :=
  h.emit (.act hx)

end At

namespace HotStuff

/-- The hotstuff part of a replica is in view `v`, and the protocol may go on to
anything there. -/
def Ready (cr : Crypto) (config : Configuration) (apps : App → Prop) (a : State)
    (v : ViewNumber) (w : World HotStuff Action Var.Val) : Prop :=
  w.mem.config = config.hotstuff ∧ w.mem.viewInfo.view = v ∧
  ∃ st, st.IsOpen ∧ At cr config apps a v st w

variable {a : State} {v : ViewNumber} {fuel : Nat} {app : App}
variable {w : World HotStuff Action Var.Val}

theorem Ready.allowed (h : Ready cr config apps a v w) : AllowedUpTo cr config apps a v w :=
  let ⟨_, _, h⟩ := h.2.2
  h.allowed

/-- Updating the tree with `justify` takes the protocol wherever that update takes it. -/
theorem wp_updateBlockTree {justify : PhaseCertificate} {st st' : Stage}
    (h : At cr config apps a v st w)
    (hstep : ∀ wb updates, BlockTree.updateBatch w.tree fuel justify = .ok (wb, updates) →
      Step cr config apps ⟨w.tree, v, st⟩ (.effect (.write wb)) ⟨w.tree.write wb, v, st'⟩) :
    wp (HotStuff.updateBlockTree fuel justify)
      (fun vss w' => At cr config apps a v st' w' ∧ w'.tree.kv.validatorSetState = .ok vss ∧
        w'.mem.config = w.mem.config ∧ w'.mem.viewInfo = w.mem.viewInfo)
      (AllowedUpTo cr config apps a v) w := by
  unfold HotStuff.updateBlockTree
  simp only [wp_bind, wp_store, wp_lift, wp_write]
  refine ⟨fun ⟨wb, updates⟩ hwb => ?_, fun _ _ => h.allowed⟩
  have hw := h.emit (hstep wb updates hwb)
  cases updates with
  | none =>
    simp only [wp_bind, wp_pure, wp_store, wp_lift, wp_mem, wp_setMem]
    exact ⟨fun vss hvss => ⟨hw.setMem _, hvss, rfl, rfl⟩, fun _ _ => hw.allowed⟩
  | some updates =>
    simp only [wp_bind, wp_act, wp_pure, wp_store, wp_lift, wp_mem, wp_setMem]
    have hw := hw.act (x := .updateValidatorSet updates) rfl
    exact ⟨fun vss hvss => ⟨hw.setMem _, hvss, rfl, rfl⟩, fun _ _ => hw.allowed⟩

/-- A vote is cast for the block of the stage, in the current view, and recorded. -/
theorem wp_vote {vss : ValidatorSetState} {justify : PhaseCertificate} {block : CryptoHash}
    {phase : Phase} (hconfig : w.mem.config = config.hotstuff) (hview : w.mem.viewInfo.view = v)
    (h : At cr config apps a v (.mayVote justify block phase) w)
    (hvss : w.tree.kv.validatorSetState = .ok vss) :
    wp (HotStuff.vote cr vss justify block phase) (fun _ => Ready cr config apps a v)
      (AllowedUpTo cr config apps a v) w := by
  have hready : Ready cr config apps a v w := 
    ⟨hconfig, hview, _, .mayVote, h⟩
  have hme : w.mem.config.me = config.me := by rw [hconfig]; rfl
  have hchain : w.mem.config.chainId = config.chainId := by rw [hconfig]; rfl
  unfold HotStuff.vote
  simp only [wp_bind, wp_mem, wp_store, wp_ite, wp_pure, wp_lift, HotStuff.send, wp_act, wp_write]
  split
  · rename_i hvoter
    refine ⟨fun voted hvoted => ?_, fun _ _ => h.allowed⟩
    obtain rfl : w.tree .highestViewPhaseVoted = voted := Except.ok.inj hvoted
    split
    · rename_i hfirst
      refine ⟨fun recipient _ => ?_, fun _ _ => h.allowed⟩
      rw [hme] at hvoter
      rw [hme, hchain, hview]
      rw [hview] at hfirst
      refine ⟨hconfig, hview, _, .idle, At.emit ?_ .record⟩
      exact h.emit (.vote hvss hvoter hfirst)
    · exact hready
  · exact hready

/-- A safe nudge is one that has a phase to vote in. -/
theorem nudgedPhase_of_safe {s : BlockTree} {nudge : Nudge} {view : ViewNumber} {chainId : ChainID}
    (h : s.safeNudge nudge view chainId = .ok true) :
    ∃ phase, HotStuff.nudgedPhase nudge.justify.phase = .ok phase := by
  simp only [BlockTree.safeNudge, Result.bind_eq_ok] at h
  obtain ⟨safe, -, h⟩ := h
  cases safe with
  | false => simp at h
  | true =>
    cases hphase : nudge.justify.phase with
    | generic | decide => simp [PhaseCertificate.isNudgeJustify, hphase] at h
    | prepare => exact ⟨.precommit, rfl⟩
    | precommit => exact ⟨.commit, rfl⟩
    | commit => exact ⟨.decide, rfl⟩

theorem wp_stopAccepting (origin : VerifyingKey) (h : Ready cr config apps a v w) :
    wp (HotStuff.stopAccepting origin) (fun _ => Ready cr config apps a v)
      (AllowedUpTo cr config apps a v) w := by
  obtain ⟨hconfig, hview, st, hst, h⟩ := h
  unfold HotStuff.stopAccepting
  simp only [wp_bind, wp_mem, wp_setMem]
  exact ⟨hconfig, hview, st, hst, h.setMem _⟩

theorem wp_onReceiveProposal {proposal : Proposal} {origin : VerifyingKey} (happ : apps app)
    (h : Ready cr config apps a v w) :
    wp (HotStuff.onReceiveProposal cr app fuel proposal origin)
      (fun _ => Ready cr config apps a v) (AllowedUpTo cr config apps a v) w := by
  obtain ⟨hconfig, hview, st, hst, hat⟩ := h
  have hchain : w.mem.config.chainId = config.chainId := by rw [hconfig]; rfl
  unfold HotStuff.onReceiveProposal
  rw [wp_bind, wp_mem, wp_bind, wp_store]
  refine wp_both hat.allowed (fun hcorrect hsafe => ?_)
    (wp_stopAccepting origin ⟨hconfig, hview, st, hst, hat⟩)
  simp only [Bool.not_true, Bool.false_eq_true, if_false, wp_bind, wp_lift]
  refine ⟨fun view _ => ?_, fun _ _ => hat.allowed⟩
  cases hanswer : app.validateBlock proposal.block view with
  | invalid => exact wp_stopAccepting origin ⟨hconfig, hview, st, hst, hat⟩
  | valid appStateUpdates validatorSetUpdates =>
    simp only [wp_bind, wp_write]
    have hinserted := hat.emit
      (.insert hst hcorrect (hchain ▸ hsafe) happ ⟨view, .inl hanswer⟩)
    refine wp_mono (wp_updateBlockTree hinserted fun wb updates h => .updateInserted h)
      (fun vss w' hw => ?_) fun _ => id
    obtain ⟨hat', hvss, hconfig', hview'⟩ := hw
    exact wp_mono (wp_vote (hconfig'.trans hconfig) (hview' ▸ hview) hat' hvss)
      (fun _ _ => wp_stopAccepting origin) fun _ => id

theorem wp_onReceiveNudge {nudge : Nudge} {origin : VerifyingKey}
    (h : Ready cr config apps a v w) :
    wp (HotStuff.onReceiveNudge cr fuel nudge origin)
      (fun _ => Ready cr config apps a v) (AllowedUpTo cr config apps a v) w := by
  obtain ⟨hconfig, hview, st, hst, hat⟩ := h
  have hchain : w.mem.config.chainId = config.chainId := by rw [hconfig]; rfl
  unfold HotStuff.onReceiveNudge
  rw [wp_bind, wp_mem, wp_bind, wp_store]
  refine wp_both hat.allowed (fun hcorrect hsafe => ?_)
    (wp_stopAccepting origin ⟨hconfig, hview, st, hst, hat⟩)
  simp only [Bool.not_true, Bool.false_eq_true, if_false, wp_bind, wp_lift]
  obtain ⟨phase, hphase⟩ := nudgedPhase_of_safe hsafe
  refine wp_mono (wp_updateBlockTree hat fun wb updates h =>
    .nudge hst hcorrect (hview ▸ hchain ▸ hsafe) hphase h) (fun vss w' hw => ?_) fun _ => id
  obtain ⟨hat', hvss, hconfig', hview'⟩ := hw
  rw [hphase]
  refine ⟨fun phase' h => ?_, fun _ _ => hat'.allowed⟩
  obtain rfl := Except.ok.inj h
  exact wp_mono (wp_vote (hconfig'.trans hconfig) (hview' ▸ hview) hat' hvss)
    (fun _ _ => wp_stopAccepting origin) fun _ => id

theorem wp_acceptPc {pc : PhaseCertificate} (h : Ready cr config apps a v w) :
    wp (HotStuff.acceptPc cr fuel pc) (fun _ => Ready cr config apps a v)
      (AllowedUpTo cr config apps a v) w := by
  obtain ⟨hconfig, hview, st, hst, hat⟩ := h
  have hchain : w.mem.config.chainId = config.chainId := by rw [hconfig]; rfl
  unfold HotStuff.acceptPc
  rw [wp_bind, wp_mem, wp_bind, wp_store]
  refine wp_both hat.allowed (fun hcorrect hsafe => ?_) ⟨hconfig, hview, st, hst, hat⟩
  simp only [if_true, wp_bind, wp_pure]
  refine wp_mono (wp_updateBlockTree hat fun wb updates h =>
    .accept hst hcorrect (hchain ▸ hsafe) h) (fun vss w' hw => ?_) fun _ => id
  obtain ⟨hat', -, hconfig', hview'⟩ := hw
  exact ⟨hconfig'.trans hconfig, hview' ▸ hview, _, .idle, hat'⟩

theorem wp_onReceivePhaseVote {phaseVote : PhaseVote} {signer : VerifyingKey}
    (h : Ready cr config apps a v w) :
    wp (HotStuff.onReceivePhaseVote cr fuel phaseVote signer) (fun _ => Ready cr config apps a v)
      (AllowedUpTo cr config apps a v) w := by
  obtain ⟨hconfig, hview, st, hst, hat⟩ := h
  unfold HotStuff.onReceivePhaseVote
  simp only [wp_bind, wp_mem, wp_ite, wp_lift, wp_setMem, wp_pure]
  split
  · refine ⟨fun ⟨newPc, collectors⟩ _ => ?_, fun _ _ => hat.allowed⟩
    have hready : Ready cr config apps a v
        (w.setMem { w.mem with phaseVoteCollectors := collectors }) :=
      ⟨hconfig, hview, st, hst, hat.setMem _⟩
    cases newPc with
    | none => exact hready
    | some newPc => exact wp_acceptPc hready
  · exact ⟨hconfig, hview, st, hst, hat⟩

theorem wp_onReceiveMsg {msg : HotStuffMessage} {origin : VerifyingKey} (happ : apps app)
    (h : Ready cr config apps a v w) :
    wp (HotStuff.onReceiveMsg cr app fuel msg origin) (fun _ => Ready cr config apps a v)
      (AllowedUpTo cr config apps a v) w := by
  unfold HotStuff.onReceiveMsg
  simp only [wp_bind, wp_mem, wp_store]
  cases msg with
  | proposal proposal =>
    simp only [wp_bind, wp_lift, wp_pure]
    refine ⟨fun vss _ => ⟨fun isProposer _ => ?_, fun _ _ => h.allowed⟩, fun _ _ => h.allowed⟩
    rw [wp_ite]
    split
    · exact wp_onReceiveProposal happ h
    · exact h
  | nudge nudge =>
    simp only [wp_bind, wp_lift, wp_pure]
    refine ⟨fun vss _ => ⟨fun isProposer _ => ?_, fun _ _ => h.allowed⟩, fun _ _ => h.allowed⟩
    rw [wp_ite]
    split
    · exact wp_onReceiveNudge h
    · exact h
  | phaseVote phaseVote => exact wp_onReceivePhaseVote h
  | newView newView => exact wp_acceptPc h

/-! ## Entering a view -/

theorem Ready.act (h : Ready cr config apps a v w) {x : Action} (hx : x.phaseVote? = none) :
    Ready cr config apps a v (w.emit (.act x)) := by
  obtain ⟨hconfig, hview, st, hst, hat⟩ := h
  exact ⟨hconfig, hview, st, hst, hat.act hx⟩

theorem keeps_broadcast {msg : HotStuffMessage}
    (hmsg : (Action.broadcast (.progress (.hotStuff msg))).phaseVote? = none) :
    Keeps (Ready cr config apps a v) (AllowedUpTo cr config apps a v) (HotStuff.broadcast msg) :=
  .act fun _ h => h.act hmsg

theorem keeps_send {peer : VerifyingKey} {msg : HotStuffMessage}
    (hmsg : (Action.send peer (.progress (.hotStuff msg))).phaseVote? = none) :
    Keeps (Ready cr config apps a v) (AllowedUpTo cr config apps a v) (HotStuff.send peer msg) :=
  .act fun _ h => h.act hmsg

theorem keeps_lift {α : Type} (x : Result α) :
    Keeps (Ready cr config apps a v) (AllowedUpTo cr config apps a v) (lift x) :=
  .lift (fun _ h => h.allowed) x

theorem keeps_repropose (blockHash : CryptoHash) :
    Keeps (Ready cr config apps a v) (AllowedUpTo cr config apps a v) (HotStuff.repropose blockHash) := by
  refine .bind .mem fun hs => .bind .store fun tree => .bind (keeps_lift _) fun block => ?_
  cases block with
  | none => exact .throw (fun _ h => h.allowed) _
  | some block => exact keeps_broadcast rfl

theorem keeps_proposeNew (highestPc : PhaseCertificate) :
    Keeps (Ready cr config apps a v) (AllowedUpTo cr config apps a v)
      (HotStuff.proposeNew cr app fuel highestPc) := by
  have htail : ∀ (hs : HotStuff) (tree : BlockTree) (parent : Option CryptoHash)
      (childHeight : BlockHeight), Keeps (Ready cr config apps a v) (AllowedUpTo cr config apps a v) (do
        let view ← lift (tree.appView fuel parent)
        let made := app.produceBlock hs.viewInfo.view parent view
        let block ← lift (Block.new cr childHeight highestPc made.1 made.2)
        HotStuff.broadcast
          (.proposal { chainId := hs.config.chainId, view := hs.viewInfo.view, block })) :=
    fun hs tree parent childHeight =>
      .bind (keeps_lift _) fun view => .bind (keeps_lift _) fun block => keeps_broadcast rfl
  refine .bind .mem fun hs => .bind .store fun tree => .ite ?_ (.bind (keeps_lift _) ?_)
  · exact .bind (.pure _) fun _ => htail hs tree _ _
  · intro parentHeight
    cases parentHeight with
    | none => exact .bind (.throw (fun _ h => h.allowed) _) fun _ => htail hs tree _ _
    | some parentHeight =>
      exact .bind (keeps_lift _) fun _ => .bind (.pure _) fun _ => htail hs tree _ _

theorem keeps_propose :
    Keeps (Ready cr config apps a v) (AllowedUpTo cr config apps a v)
      (HotStuff.propose cr app fuel) := by
  refine .bind .mem fun hs => .bind .store fun tree => .bind (keeps_lift _) fun block => ?_
  cases block with
  | some blockHash => exact keeps_repropose blockHash
  | none =>
    refine .bind (keeps_lift _) fun highestPc => ?_
    cases hphase : highestPc.phase with
    | generic | decide => exact keeps_proposeNew highestPc
    | prepare | precommit | commit => exact keeps_broadcast rfl

theorem keeps_sendNewView (vss : ValidatorSetState) :
    Keeps (Ready cr config apps a v) (AllowedUpTo cr config apps a v) (HotStuff.sendNewView vss) := by
  refine .bind .mem fun hs => .bind .store fun tree => .bind (keeps_lift _) fun highestPc =>
    .bind (keeps_lift _) fun ⟨committedVsLeader, prevVsLeader⟩ => .bind (keeps_send rfl) fun _ => ?_
  cases prevVsLeader with
  | none => exact .pure _
  | some prevVsLeader => exact keeps_send rfl

theorem wp_enterView {newViewInfo : ViewInfo} (h : Ready cr config apps a v w)
    (hnew : v < newViewInfo.view) :
    wp (HotStuff.enterView cr app fuel newViewInfo)
      (fun _ => Ready cr config apps a newViewInfo.view)
      (AllowedUpTo cr config apps a newViewInfo.view) w := by
  unfold HotStuff.enterView
  simp only [wp_bind, wp_store, wp_lift]
  refine ⟨fun vss _ => ?_, fun _ _ => h.allowed.mono hnew.le⟩
  refine wp_mono (keeps_sendNewView vss w h) (fun _ w' h' => ?_) fun _ hw' => hw'.mono hnew.le
  obtain ⟨hconfig, -, st, hst, hat⟩ := h'
  simp only [wp_mem, wp_setMem, wp_write]
  have hready : ∀ m : HotStuff, m.config = config.hotstuff → m.viewInfo = newViewInfo →
      Ready cr config apps a newViewInfo.view ((w'.setMem m).emit
        (.write (WriteBatch.setHighestViewEntered newViewInfo.view))) :=
    fun m hm hview => ⟨hm, congrArg ViewInfo.view hview, _, .idle,
      (hat.setMem m).emit (.enterView hst hnew)⟩
  refine ⟨fun isProposer _ => ?_, fun _ _ => Ready.allowed (hready _ hconfig rfl)⟩
  rw [wp_ite]
  split
  · exact keeps_propose _ (hready _ hconfig rfl)
  · exact hready _ hconfig rfl

end HotStuff
end Protocol
end HotStuffRs
