import HotStuffRs.Replica.Invariant

/-
The handlers keep every run invariant.
-/

namespace HotStuffRs
namespace RunInvariant

open Kv Kv.Process

variable {cr : Crypto} {config : Configuration} {apps : App → Prop} {s₀ : BlockTree}
variable (I : RunInvariant cr config apps s₀) (log : List Event) (c : TimeoutVoteCollectors)

section

variable {M N : Type}

def point (w : World M Action Var.Val) : Point := ⟨log, w.effects⟩

/-- After the events of `log`, the effects of `w` are such that a crash at any of them finds
what it may. -/
def Halted (w : World M Action Var.Val) : Prop :=
  w.base = s₀.replay log ∧ ∀ effects, effects <+: w.effects → I.Halt ⟨log, effects⟩

/-- `w` is between two moves. -/
def Holds (w : World M Action Var.Val) : Prop := I.Halted log w ∧ I.Open (point log w) c

variable {I log c} {w : World M Action Var.Val}

theorem Halted.tree_eq (h : I.Halted log w) : w.tree = (point log w).tree s₀ := by
  rw [World.tree, h.1]
  rfl

theorem Halted.congr (h : I.Halted log w) {w' : World N Action Var.Val} (hbase : w'.base = w.base)
    (heffects : w'.effects = w.effects) : I.Halted log w' := by
  refine ⟨hbase.trans h.1, ?_⟩
  rw [heffects]
  exact h.2

theorem Halted.emit (h : I.Halted log w) {e : Replica.Effect}
    (hhalt : I.Halt ((point log w).emit e)) : I.Halted log (w.emit e) := by
  refine ⟨h.1, ?_⟩
  intro effects hprefix
  rcases List.prefix_concat_iff.mp hprefix with rfl | hprefix
  · exact hhalt
  · exact h.2 effects hprefix

namespace Holds

theorem halted (h : I.Holds log c w) : I.Halted log w := h.1

theorem isOpen (h : I.Holds log c w) : I.Open (point log w) c := h.2

theorem tree_eq (h : I.Holds log c w) : w.tree = (point log w).tree s₀ := h.1.tree_eq

theorem congr (h : I.Holds log c w) {w' : World N Action Var.Val} (hbase : w'.base = w.base)
    (heffects : w'.effects = w.effects) : I.Holds log c w' := by
  refine ⟨h.1.congr hbase heffects, ?_⟩
  have hpoint : point log w' = point log w := by rw [point, point, heffects]
  rw [hpoint]
  exact h.2

theorem setMem (h : I.Holds log c w) (m : M) : I.Holds log c (w.setMem m) := h.congr rfl rfl

theorem emit (h : I.Holds log c w) {e : Replica.Effect} {c' : TimeoutVoteCollectors}
    (hopen : I.Open ((point log w).emit e) c') : I.Holds log c' (w.emit e) :=
  ⟨h.1.emit (I.halt hopen), hopen⟩

theorem act (h : I.Holds log c w) {a : Action} (ha : ∀ updates, a ≠ .updateValidatorSet updates) :
    I.Holds log c (w.emit (.act a)) :=
  h.emit (I.act h.2 ha)

end Holds

end

/-! ## HotStuff -/

namespace HotStuff

/-- The hotstuff part of a replica is between two moves. -/
def Ready (w : World HotStuff Action Var.Val) : Prop :=
  w.mem.config = config.hotstuff ∧ I.Holds log c w

variable {I log c} {fuel : Nat} {app : App} {w : World HotStuff Action Var.Val}

theorem Ready.halted (h : Ready I log c w) : I.Halted log w := h.2.halted

theorem Ready.setMem (h : Ready I log c w) {m : HotStuff} (hm : m.config = config.hotstuff) :
    Ready I log c (w.setMem m) :=
  ⟨hm, h.2.setMem m⟩

theorem Ready.chainId_eq (h : Ready I log c w) : w.mem.config.chainId = config.chainId := by
  rw [h.1]
  rfl

theorem keeps_lift {α : Type} (x : Result α) : Keeps (Ready I log c) (I.Halted log) (lift x) :=
  .lift (fun _ h => h.halted) x

theorem keeps_send {peer : VerifyingKey} {msg : HotStuffMessage} :
    Keeps (Ready I log c) (I.Halted log) (HotStuff.send peer msg) :=
  .act fun _ h => ⟨h.1, h.2.act fun _ => Action.noConfusion⟩

theorem keeps_broadcast {msg : HotStuffMessage} :
    Keeps (Ready I log c) (I.Halted log) (HotStuff.broadcast msg) :=
  .act fun _ h => ⟨h.1, h.2.act fun _ => Action.noConfusion⟩

theorem keeps_stopAccepting (origin : VerifyingKey) :
    Keeps (Ready I log c) (I.Halted log) (HotStuff.stopAccepting origin) :=
  .bind_mem fun _ h => .setMem fun _ h' => h'.setMem h.1

/-- A vote is sent, and recorded. -/
theorem keeps_vote {vss : ValidatorSetState} {justify : PhaseCertificate} {block : CryptoHash}
    {phase : Phase} :
    Keeps (Ready I log c) (I.Halted log) (HotStuff.vote cr vss justify block phase) := by
  refine .bind .mem fun hs => .bind .store fun tree => .ite (.bind (keeps_lift _) fun voted => ?_)
    (.pure _)
  refine .ite (.bind (keeps_lift _) fun recipient => .bind keeps_send fun _ => ?_) (.pure _)
  intro w h
  exact ⟨h.1, h.2.emit (I.record h.2.isOpen)⟩

/-- What follows the write of an update. -/
theorem wp_updateBlockTree {justify : PhaseCertificate} (hconfig : w.mem.config = config.hotstuff)
    (h : I.Halted log w)
    (hupdate : ∀ wb updates, BlockTree.updateBatch w.tree fuel justify = .ok (wb, updates) →
      I.Halt ((point log w).emit (.write wb)) ∧
        I.Open (((point log w).emit (.write wb)).tell updates) c) :
    wp (HotStuff.updateBlockTree fuel justify) (fun _ => Ready I log c) (I.Halted log) w := by
  unfold HotStuff.updateBlockTree
  simp only [wp_bind, wp_store, wp_lift, wp_write]
  refine ⟨fun updated hwb => ?_, fun _ _ => h⟩
  obtain ⟨wb, updates⟩ := updated
  obtain ⟨hhalt, hopen⟩ := hupdate wb updates hwb
  have hwritten : I.Halted log (w.emit (.write wb)) := h.emit hhalt
  have htail : ∀ w' : World HotStuff Action Var.Val, Ready I log c w' →
      (∀ vss, w'.tree.kv.validatorSetState = .ok vss → Ready I log c (w'.setMem { w'.mem with
        phaseVoteCollectors := (w'.mem.phaseVoteCollectors.updateValidatorSets vss).1 })) ∧
      ∀ e, w'.tree.kv.validatorSetState = .error e → I.Halted log w' :=
    fun w' h' => ⟨fun _ _ => h'.setMem h'.1, fun _ _ => h'.halted⟩
  cases updates with
  | none =>
    simp only [wp_bind, wp_pure, wp_store, wp_lift, wp_mem, wp_setMem]
    exact htail _ ⟨hconfig, hwritten, hopen⟩
  | some updates =>
    simp only [wp_bind, wp_act, wp_pure, wp_store, wp_lift, wp_mem, wp_setMem]
    exact htail _ ⟨hconfig, hwritten.emit (I.halt hopen), hopen⟩

theorem keeps_onReceiveProposal {proposal : Proposal} {origin : VerifyingKey}
    (happ : apps app) :
    Keeps (Ready I log c) (I.Halted log)
      (HotStuff.onReceiveProposal cr app fuel proposal origin) := by
  intro w h
  have hopen := h.2.isOpen
  have htree := h.2.tree_eq
  unfold HotStuff.onReceiveProposal
  rw [wp_bind, wp_mem, wp_bind, wp_store, h.chainId_eq]
  refine wp_both h.halted (fun hcorrect hsafe => ?_) (keeps_stopAccepting origin w h)
  simp only [Bool.not_true, Bool.false_eq_true, if_false, wp_bind, wp_lift]
  refine ⟨fun view _ => ?_, fun _ _ => h.halted⟩
  cases hanswer : app.validateBlock proposal.block view with
  | invalid => exact keeps_stopAccepting origin w h
  | valid appStateUpdates validatorSetUpdates =>
    simp only [wp_bind, wp_write]
    rw [htree] at hcorrect hsafe ⊢
    have hvalid : app.Validates proposal.block appStateUpdates validatorSetUpdates :=
      ⟨view, .inl hanswer⟩
    have hinserted := h.halted.emit (I.insert hopen hcorrect hsafe happ hvalid)
    refine wp_mono (wp_updateBlockTree (c := c) h.1 hinserted fun wb updates hwb => ?_)
      (fun vss w' hw' => ?_) fun _ => id
    · rw [World.tree_emit, htree] at hwb
      exact I.updateInserted hopen hcorrect hsafe happ hvalid hwb
    · exact wp_mono (keeps_vote w' hw') (fun _ w'' => keeps_stopAccepting origin w'') fun _ => id

theorem keeps_onReceiveNudge {nudge : Nudge} {origin : VerifyingKey} :
    Keeps (Ready I log c) (I.Halted log) (HotStuff.onReceiveNudge cr fuel nudge origin) := by
  intro w h
  unfold HotStuff.onReceiveNudge
  rw [wp_bind, wp_mem, wp_bind, wp_store, h.chainId_eq]
  refine wp_both h.halted (fun hcorrect hsafe => ?_) (keeps_stopAccepting origin w h)
  simp only [Bool.not_true, Bool.false_eq_true, if_false, wp_bind, wp_lift]
  refine wp_mono (wp_updateBlockTree (c := c) h.1 h.halted fun wb updates hwb => ?_)
    (fun vss w' hw' => ?_) fun _ => id
  · have hsafePc := BlockTree.safePc_of_safeNudge hsafe
    rw [h.2.tree_eq] at hcorrect hsafePc hwb
    exact I.accept h.2.isOpen hcorrect hsafePc hwb
  · exact ⟨fun phase _ => wp_mono (keeps_vote w' hw')
      (fun _ w'' => keeps_stopAccepting origin w'') fun _ => id, fun _ _ => hw'.halted⟩

theorem keeps_acceptPc {pc : PhaseCertificate} :
    Keeps (Ready I log c) (I.Halted log) (HotStuff.acceptPc cr fuel pc) := by
  intro w h
  unfold HotStuff.acceptPc
  rw [wp_bind, wp_mem, wp_bind, wp_store, h.chainId_eq]
  refine wp_both h.halted (fun hcorrect hsafe => ?_) h
  simp only [if_true, wp_bind, wp_pure]
  refine wp_mono (wp_updateBlockTree (c := c) h.1 h.halted fun wb updates hwb => ?_)
    (fun _ _ hw' => hw') fun _ => id
  rw [h.2.tree_eq] at hcorrect hsafe hwb
  exact I.accept h.2.isOpen hcorrect hsafe hwb

theorem keeps_onReceivePhaseVote {phaseVote : PhaseVote} {signer : VerifyingKey} :
    Keeps (Ready I log c) (I.Halted log)
      (HotStuff.onReceivePhaseVote cr fuel phaseVote signer) := by
  refine .bind_mem fun w h => .ite (.bind (keeps_lift _) fun ⟨newPc, collectors⟩ => ?_) (.pure _)
  refine .bind (.setMem fun _ h' => h'.setMem h.1) fun _ => ?_
  cases newPc with
  | none => exact .pure _
  | some newPc => exact keeps_acceptPc

theorem keeps_onReceiveMsg {msg : HotStuffMessage} {origin : VerifyingKey} (happ : apps app) :
    Keeps (Ready I log c) (I.Halted log) (HotStuff.onReceiveMsg cr app fuel msg origin) := by
  refine .bind .mem fun hs => .bind .store fun tree => ?_
  cases msg with
  | proposal proposal =>
    exact .bind (keeps_lift _) fun vss => .bind (keeps_lift _) fun isProposer =>
      .bind (.pure _) fun accepts => .ite (keeps_onReceiveProposal happ) (.pure _)
  | nudge nudge =>
    exact .bind (keeps_lift _) fun vss => .bind (keeps_lift _) fun isProposer =>
      .bind (.pure _) fun accepts => .ite keeps_onReceiveNudge (.pure _)
  | phaseVote phaseVote =>
    exact .bind (.pure _) fun accepts => .ite keeps_onReceivePhaseVote (.pure _)
  | newView newView => exact .bind (.pure _) fun accepts => .ite keeps_acceptPc (.pure _)

/-! ### Entering a view -/

theorem keeps_repropose (blockHash : CryptoHash) :
    Keeps (Ready I log c) (I.Halted log) (HotStuff.repropose blockHash) := by
  refine .bind .mem fun hs => .bind .store fun tree => .bind (keeps_lift _) fun block => ?_
  cases block with
  | none => exact .throw (fun _ h => h.halted) _
  | some block => exact keeps_broadcast

theorem keeps_proposeNew (highestPc : PhaseCertificate) :
    Keeps (Ready I log c) (I.Halted log) (HotStuff.proposeNew cr app fuel highestPc) := by
  have htail : ∀ (hs : HotStuff) (tree : BlockTree) (parent : Option CryptoHash)
      (childHeight : BlockHeight), Keeps (Ready I log c) (I.Halted log) (do
        let view ← lift (tree.appView fuel parent)
        let made := app.produceBlock hs.viewInfo.view parent view
        let block ← lift (Block.new cr childHeight highestPc made.1 made.2)
        HotStuff.broadcast
          (.proposal { chainId := hs.config.chainId, view := hs.viewInfo.view, block })) :=
    fun hs tree parent childHeight =>
      .bind (keeps_lift _) fun view => .bind (keeps_lift _) fun block => keeps_broadcast
  refine .bind .mem fun hs => .bind .store fun tree => .ite ?_ (.bind (keeps_lift _) ?_)
  · exact .bind (.pure _) fun _ => htail hs tree _ _
  · intro parentHeight
    cases parentHeight with
    | none => exact .bind (.throw (fun _ h => h.halted) _) fun _ => htail hs tree _ _
    | some parentHeight =>
      exact .bind (keeps_lift _) fun _ => .bind (.pure _) fun _ => htail hs tree _ _

theorem keeps_propose : Keeps (Ready I log c) (I.Halted log) (HotStuff.propose cr app fuel) := by
  refine .bind .mem fun hs => .bind .store fun tree => .bind (keeps_lift _) fun block => ?_
  cases block with
  | some blockHash => exact keeps_repropose blockHash
  | none =>
    refine .bind (keeps_lift _) fun highestPc => ?_
    cases highestPc.phase with
    | generic | decide => exact keeps_proposeNew highestPc
    | prepare | precommit | commit => exact keeps_broadcast

theorem keeps_sendNewView (vss : ValidatorSetState) :
    Keeps (Ready I log c) (I.Halted log) (HotStuff.sendNewView vss) := by
  refine .bind .mem fun hs => .bind .store fun tree => .bind (keeps_lift _) fun highestPc =>
    .bind (keeps_lift _) fun ⟨committedVsLeader, prevVsLeader⟩ => .bind keeps_send fun _ => ?_
  cases prevVsLeader with
  | none => exact .pure _
  | some prevVsLeader => exact keeps_send

theorem keeps_enterView {newViewInfo : ViewInfo} :
    Keeps (Ready I log c) (I.Halted log) (HotStuff.enterView cr app fuel newViewInfo) := by
  refine .bind .store fun tree => .bind (keeps_lift _) fun vss => .bind (keeps_sendNewView vss)
    fun _ => .bind_mem fun w h => .bind (.setMem fun _ h' => h'.setMem h.1) fun _ => ?_
  refine .bind ?_ fun _ => .bind (keeps_lift _) fun isProposer => .ite keeps_propose (.pure _)
  intro w h
  exact ⟨h.1, h.2.emit (I.enterView h.2.isOpen)⟩

end HotStuff

/-! ## Pacemaker -/

namespace Pacemaker

/-- The pacemaker is between two moves. -/
def Ready (w : World Pacemaker Action Var.Val) : Prop :=
  w.mem.config = config.pacemaker ∧ I.Holds log w.mem.state.timeoutVoteCollectors w

variable {I log} {w : World Pacemaker Action Var.Val} {now : Instant}

theorem Ready.halted (h : Ready I log w) : I.Halted log w := h.2.halted

theorem keeps_broadcast (msg : PacemakerMessage) :
    Keeps (Ready I log) (I.Halted log) (Pacemaker.broadcast msg) :=
  .act fun _ h => ⟨h.1, h.2.act fun _ => Action.noConfusion⟩

/-- `advance` and `extend_view` leave the collectors alone. -/
theorem keeps_advance (certificate : ProgressCertificate) :
    Keeps (Ready I log) (I.Halted log) (Pacemaker.advance certificate) := by
  refine .bind (keeps_broadcast _) fun _ => ?_
  intro w h
  exact ⟨h.1, h.2.setMem _⟩

theorem wp_extendView (h : Ready I log w) :
    wp (Pacemaker.extendView now) (fun _ => Ready I log) (I.Halted log) w := by
  unfold Pacemaker.extendView
  simp only [wp_bind, wp_mem, wp_lift, wp_ite, wp_throw, wp_setMem]
  refine ⟨fun isEpochChange _ => ?_, fun _ _ => h.halted⟩
  split
  · exact h.halted
  · exact ⟨fun deadline _ => ⟨h.1, h.2.setMem _⟩, fun _ _ => h.halted⟩

/-- A view is entered with new collectors. -/
theorem wp_updateView {nextView : ViewNumber} {vss : ValidatorSetState} (h : Ready I log w)
    (hvss : w.tree.kv.validatorSetState = .ok vss) :
    wp (Pacemaker.updateView nextView vss now) (fun _ => Ready I log) (I.Halted log) w := by
  unfold Pacemaker.updateView
  simp only [wp_bind, wp_mem, wp_ite, wp_throw]
  split
  · exact h.halted
  · have hnew : ∀ (state : PacemakerState) (deadline : Instant),
        Ready I log (w.setMem { w.mem with
          state := { state with
            timeoutVoteCollectors := .new w.mem.config.chainId nextView vss }
          viewInfo := { view := nextView, deadline } }) := by
      intro state deadline
      have hchain : w.mem.config.chainId = config.chainId := by
        rw [h.1]
        rfl
      rw [h.2.tree_eq] at hvss
      refine ⟨h.1, h.2.1.congr rfl rfl, ?_⟩
      rw [hchain]
      exact I.newView h.2.isOpen hvss
    simp only [wp_lift]
    refine ⟨fun curEpoch _ => ⟨fun nextEpoch _ => ?_, fun _ _ => h.halted⟩, fun _ _ => h.halted⟩
    split
    · simp only [wp_setMem]
      exact ⟨fun state _ => ⟨fun deadline _ => hnew state deadline, fun _ _ => h.halted⟩,
        fun _ _ => h.halted⟩
    · simp only [wp_pure, wp_setMem]
      exact ⟨fun deadline _ => hnew _ deadline, fun _ _ => h.halted⟩

theorem wp_onTimeout {vss : ValidatorSetState} (h : Ready I log w)
    (hvss : w.tree.kv.validatorSetState = .ok vss) :
    wp (Pacemaker.onTimeout cr now vss) (fun _ => Ready I log) (I.Halted log) w := by
  unfold Pacemaker.onTimeout
  simp only [wp_bind, wp_mem, wp_store, wp_lift]
  refine ⟨fun isEpochChange _ => ?_, fun _ _ => h.halted⟩
  rw [wp_ite]
  split
  · rw [wp_ite]
    split
    · simp only [wp_bind, wp_lift]
      refine ⟨fun highestTc _ => ?_, fun _ _ => h.halted⟩
      exact wp_mono (keeps_broadcast _ w h) (fun _ _ h' => wp_extendView h') fun _ => id
    · exact wp_extendView h
  · rw [wp_bind, wp_lift]
    exact ⟨fun nextView _ => wp_updateView h hvss, fun _ _ => h.halted⟩

theorem keeps_tick : Keeps (Ready I log) (I.Halted log) (Pacemaker.tick cr now) := by
  intro w h
  unfold Pacemaker.tick
  simp only [wp_bind, wp_mem, wp_store, wp_lift]
  refine ⟨fun vss hvss => ?_, fun _ _ => h.halted⟩
  rw [wp_ite]
  split
  · exact wp_onTimeout h hvss
  · simp only [wp_bind, wp_setMem, wp_lift]
    rw [h.2.tree_eq] at hvss
    have hfollowed : Ready I log (w.setMem { w.mem with state := { w.mem.state with
        timeoutVoteCollectors := (w.mem.state.timeoutVoteCollectors.updateValidatorSets vss).1 } }) :=
      ⟨h.1, h.2.1.congr rfl rfl, I.follow h.2.isOpen hvss⟩
    refine ⟨fun highestPc _ => ?_, fun _ _ => hfollowed.halted⟩
    rw [wp_ite]
    split
    · exact keeps_advance _ _ hfollowed
    · exact hfollowed

/-- A higher timeout certificate of the collectors is stored. -/
theorem wp_onCollectTc {vss : ValidatorSetState} {newTc : TimeoutCertificate} (h : Ready I log w)
    (hstored : I.Open ((point log w).emit (.write (WriteBatch.setHighestTc newTc)))
      w.mem.state.timeoutVoteCollectors) :
    wp (Pacemaker.onCollectTc vss newTc) (fun _ => Ready I log) (I.Halted log) w := by
  unfold Pacemaker.onCollectTc
  simp only [wp_bind, wp_mem, wp_store, wp_lift, wp_ite, wp_write]
  refine ⟨fun isHigher _ => ?_, fun _ _ => h.halted⟩
  have hready : Ready I log (w.emit (.write (WriteBatch.setHighestTc newTc))) :=
    ⟨h.1, h.2.emit hstored⟩
  split
  · split
    · exact keeps_advance _ _ hready
    · exact hready
  · exact h

/-- Whether `timeoutVote` by `origin` makes the pacemaker store `tc`, which comes with it, and
leave its view for the one after that of `tc`. -/
def FallsBack (cr : Crypto) (pm : Pacemaker) (tree : BlockTree) (timeoutVote : TimeoutVote)
    (origin : VerifyingKey) (tc : TimeoutCertificate) : Prop :=
  ∃ vss collectors, tree.kv.validatorSetState = .ok vss ∧ isValidator origin vss = true ∧
    timeoutVote.isCorrect cr origin = true ∧
    isEpochChangeView timeoutVote.view pm.config.epochLength = .ok true ∧
    Pacemaker.fallbackTc cr tree timeoutVote = .ok (some tc) ∧
    pm.state.timeoutVoteCollectors.collect origin timeoutVote = .ok (none, collectors) ∧
    Pacemaker.isHigherTc tree tc = .ok true

/-- The timeout certificate that a vote falls back on is the vote's, and correct. -/
theorem isCorrect_of_fallbackTc {tree : BlockTree} {timeoutVote : TimeoutVote}
    {tc : TimeoutCertificate}
    (h : Pacemaker.fallbackTc cr tree timeoutVote = .ok (some tc)) :
    timeoutVote.highestTc = some tc ∧ tc.isCorrect cr tree = .ok true := by
  unfold Pacemaker.fallbackTc at h
  cases htc : timeoutVote.highestTc with
  | none =>
    rw [htc] at h
    cases h
  | some tc' =>
    simp only [htc, Result.bind_eq_ok, Result.pure_eq, Except.ok.injEq] at h
    obtain ⟨isCorrect, hcorrect, h⟩ := h
    cases isCorrect with
    | false => cases h
    | true =>
      obtain rfl := Option.some.inj h
      exact ⟨rfl, hcorrect⟩

theorem wp_onReceiveTimeoutVote {timeoutVote : TimeoutVote} {origin : VerifyingKey}
    (h : Ready I log w)
    (hadmits : ∀ tc, FallsBack cr w.mem w.tree timeoutVote origin tc → I.Admits tc) :
    wp (Pacemaker.onReceiveTimeoutVote cr now timeoutVote origin) (fun _ => Ready I log)
      (I.Halted log) w := by
  unfold Pacemaker.onReceiveTimeoutVote
  simp only [wp_bind, wp_mem, wp_store, wp_lift]
  refine ⟨fun vss hvss => ?_, fun _ _ => h.halted⟩
  rw [wp_ite]
  split
  · rename_i haccepted
    obtain ⟨hvalidator, hcorrect⟩ := haccepted
    simp only [wp_bind, wp_lift]
    refine ⟨fun isEpochChange hepoch => ?_, fun _ _ => h.halted⟩
    rw [wp_ite]
    split
    · rename_i htrue
      subst htrue
      simp only [wp_bind, wp_lift, wp_setMem]
      refine ⟨fun fallbackTc hfallback => ⟨fun collected hcollect => ?_, fun _ _ => h.halted⟩,
        fun _ _ => h.halted⟩
      obtain ⟨newTc, collectors⟩ := collected
      obtain ⟨hopen, hstored⟩ := I.collect h.2.isOpen hcorrect hcollect
      have hready : Ready I log (w.setMem { w.mem with
          state := { w.mem.state with timeoutVoteCollectors := collectors } }) :=
        ⟨h.1, h.2.1.congr rfl rfl, hopen⟩
      cases newTc with
      | some newTc => exact wp_onCollectTc hready (hstored newTc rfl)
      | none =>
        cases fallbackTc with
        | none => exact hready
        | some tc =>
          dsimp only
          unfold Pacemaker.onFallbackTc
          simp only [wp_bind, wp_store, wp_lift, wp_ite, wp_write]
          refine ⟨fun isHigher hhigher => ?_, fun _ _ => hready.halted⟩
          split
          · rename_i htrue
            subst htrue
            have hadmitted : I.Admits tc := hadmits tc
              ⟨vss, collectors, hvss, hvalidator, hcorrect, hepoch, hfallback, hcollect, hhigher⟩
            have hcorrectTc := (isCorrect_of_fallbackTc hfallback).2
            rw [h.2.tree_eq] at hcorrectTc
            have hstored := hready.2.emit (I.receiveTc hopen hcorrectTc (.inr hadmitted))
            refine ⟨fun nextView _ => wp_updateView ⟨h.1, hstored⟩ ?_, fun _ _ => hstored.halted⟩
            rw [World.tree_emit]
            exact hvss
          · exact hready
    · exact h
  · exact h

/-- A certificate that a replica accepts is of this chain, and correct. -/
theorem wp_updateHighestTc {vss : ValidatorSetState} {certificate : ProgressCertificate}
    {epochLength : U32} (h : Ready I log w) (hvss : w.tree.kv.validatorSetState = .ok vss)
    (hchain : certificate.chainId = config.chainId)
    (hvalid : Pacemaker.isValidCertificate cr w.tree epochLength certificate = .ok true) :
    wp (Pacemaker.updateHighestTc certificate)
      (fun _ w' => Ready I log w' ∧ w'.tree.kv.validatorSetState = .ok vss) (I.Halted log) w := by
  cases certificate with
  | phaseCertificate pc => exact ⟨h, hvss⟩
  | timeoutCertificate tc =>
    simp only [Pacemaker.updateHighestTc, wp_bind, wp_store, wp_lift, wp_ite, wp_write]
    refine ⟨fun isHigher _ => ?_, fun _ _ => h.halted⟩
    split
    · have hcorrect : tc.isCorrect cr w.tree = .ok true := by
        simp only [Pacemaker.isValidCertificate, Result.bind_eq_ok] at hvalid
        obtain ⟨isCorrect, hcorrect, hvalid⟩ := hvalid
        cases isCorrect with
        | false => cases hvalid
        | true => exact hcorrect
      rw [h.2.tree_eq] at hcorrect
      have hstored := h.2.emit (I.receiveTc h.2.isOpen hcorrect (.inl hchain))
      refine ⟨⟨h.1, hstored⟩, ?_⟩
      rw [World.tree_emit]
      exact hvss
    · exact ⟨h, hvss⟩

theorem wp_onReceiveAdvanceView {advanceView : AdvanceView} {origin : VerifyingKey}
    (h : Ready I log w) (hchain : advanceView.progressCertificate.chainId = config.chainId) :
    wp (Pacemaker.onReceiveAdvanceView cr now advanceView origin) (fun _ => Ready I log)
      (I.Halted log) w := by
  unfold Pacemaker.onReceiveAdvanceView
  rw [wp_bind, wp_mem, wp_bind, wp_store, wp_bind, wp_lift]
  refine ⟨fun vss hvss => ?_, fun _ _ => h.halted⟩
  rw [wp_ite]
  split
  · rw [wp_bind, wp_lift]
    refine ⟨fun isValid hvalid => ?_, fun _ _ => h.halted⟩
    rw [wp_ite]
    split
    · rename_i htrue
      subst htrue
      rw [wp_bind]
      refine wp_mono (wp_updateHighestTc h hvss hchain hvalid) (fun _ w' hw' => ?_) fun _ => id
      obtain ⟨h', hvss'⟩ := hw'
      -- Whatever is sent first, the view is left with the same validator sets.
      have hleave : ∀ w'', Ready I log w'' → w''.tree.kv.validatorSetState = .ok vss →
          wp (lift (U64.add advanceView.progressCertificate.view 1) >>= fun nextView =>
            Pacemaker.updateView nextView vss now) (fun _ => Ready I log) (I.Halted log) w'' := by
        intro w'' h'' hvss''
        rw [wp_bind, wp_lift]
        exact ⟨fun nextView _ => wp_updateView h'' hvss'', fun _ _ => h''.halted⟩
      rw [wp_ite]
      split
      · have hsent := h'.2.act (a := .broadcast (.progress (.pacemaker (.advanceView
          { progressCertificate := advanceView.progressCertificate })))) fun _ => Action.noConfusion
        rw [wp_bind]
        refine hleave _ ⟨h'.1, hsent.setMem _⟩ ?_
        rw [World.tree_setMem, World.tree_emit]
        exact hvss'
      · exact hleave w' h' hvss'
    · exact h
  · exact h

end Pacemaker

/-! ## Block sync -/

namespace BlockSyncClient

/-- The block sync client is between two moves. -/
def Ready (w : World BlockSyncClient Action Var.Val) : Prop :=
  w.mem.config = config.blockSyncClient ∧ I.Holds log c w

/-- A sync has sent a request. -/
def Synced (w : World BlockSyncClient Action Var.Val) : Prop :=
  Ready I log c w ∧
  ∃ peer request, .act (.send peer (.blockSyncRequest request)) ∈ w.effects

variable {I log c} {fuel : Nat} {app : App} {now : Instant}
variable {w : World BlockSyncClient Action Var.Val}

theorem Ready.halted (h : Ready I log c w) : I.Halted log w := h.2.halted

theorem Ready.setMem (h : Ready I log c w) {m : BlockSyncClient}
    (hm : m.config = config.blockSyncClient) : Ready I log c (w.setMem m) :=
  ⟨hm, h.2.setMem m⟩

theorem keeps_lift {α : Type} (x : Result α) : Keeps (Ready I log c) (I.Halted log) (lift x) :=
  .lift (fun _ h => h.halted) x

theorem Synced.halted (h : Synced I log c w) : I.Halted log w := h.1.halted

theorem Synced.setMem (h : Synced I log c w) {m : BlockSyncClient}
    (hm : m.config = config.blockSyncClient) : Synced I log c (w.setMem m) :=
  ⟨h.1.setMem hm, h.2⟩

theorem Synced.emit (h : Synced I log c w) {e : Replica.Effect} (he : Ready I log c (w.emit e)) :
    Synced I log c (w.emit e) := by
  obtain ⟨peer, request, hmem⟩ := h.2
  exact ⟨he, peer, request, List.mem_append_left _ hmem⟩

theorem keeps_synced_lift {α : Type} (x : Result α) :
    Keeps (Synced I log c) (I.Halted log) (lift x) :=
  .lift (fun _ h => h.halted) x

theorem keeps_blacklist {peer : VerifyingKey} :
    Keeps (Synced I log c) (I.Halted log) (BlockSyncClient.blacklist now peer) :=
  .bind_mem fun _ h => .bind (keeps_synced_lift _) fun _ =>
    .bind (.setMem fun _ h' => h'.setMem h.1.1) fun _ => .pure _

theorem keeps_endSync {peer : VerifyingKey} {initHeight : BlockHeight} {blocksSynced : Nat} :
    Keeps (Synced I log c) (I.Halted log)
      (BlockSyncClient.endSync now peer initHeight blocksSynced) :=
  .bind .mem fun _ => .bind (keeps_synced_lift _) fun _ => .bind (keeps_synced_lift _) fun _ =>
    .ite keeps_blacklist (.pure _)

theorem keeps_responseDeadline :
    Keeps (Synced I log c) (I.Halted log) (BlockSyncClient.responseDeadline now) :=
  .bind .mem fun _ => keeps_synced_lift _

/-- A request is sent, and the replica is syncing from there on. -/
theorem wp_sendRequest {peer : VerifyingKey} (h : Ready I log c w) :
    wp (BlockSyncClient.sendRequest peer) (fun _ => Synced I log c) (I.Halted log) w := by
  have hsent : ∀ request, Synced I log c
      (w.emit (.act (.send peer (.blockSyncRequest request)))) := by
    intro request
    refine ⟨⟨h.1, h.2.act fun _ => Action.noConfusion⟩, peer, request, ?_⟩
    exact List.mem_append_right _ List.mem_cons_self
  unfold BlockSyncClient.sendRequest
  simp only [wp_bind, wp_mem, wp_store, wp_lift]
  refine ⟨fun height _ => ?_, fun _ _ => h.halted⟩
  cases height with
  | some height =>
    simp only [wp_bind, wp_lift, wp_act]
    exact ⟨fun _ _ => hsent _, fun _ _ => h.halted⟩
  | none => exact hsent _

/-- What comes after a request, for which the replica waits until some instant. -/
theorem wp_request_bind {peer : VerifyingKey} {α : Type} {f : BlockSyncClient.Handler α}
    {Q : α → World BlockSyncClient Action Var.Val → Prop} (h : Ready I log c w)
    (hf : ∀ w', Synced I log c w' → wp f Q (I.Halted log) w') :
    wp (do
      BlockSyncClient.sendRequest peer
      let _ ← BlockSyncClient.responseDeadline now
      f) Q (I.Halted log) w := by
  rw [wp_bind]
  refine wp_mono (wp_sendRequest h) (fun _ w' h' => ?_) fun _ => id
  rw [wp_bind]
  exact wp_mono (keeps_responseDeadline w' h') (fun _ => hf) fun _ => id

/-- The last effect was not to insert a block. -/
def Settled (w : World BlockSyncClient Action Var.Val) : Prop :=
  ∀ wb, w.effects.getLast? = some (.write wb) → ¬ WriteBatch.Inserts wb

theorem settled_write {wb : WriteBatch} (h : ¬ WriteBatch.Inserts wb) :
    Settled (w.emit (.write wb)) := by
  intro wb' hwb'
  have hlast : some (Effect.write wb : Replica.Effect) = some (.write wb') := by
    rw [← hwb', World.effects_emit, List.getLast?_concat]
  cases hlast
  exact h

theorem settled_act {a : Action} : Settled (w.emit (.act a)) := by
  intro wb hwb
  rw [World.effects_emit, List.getLast?_concat] at hwb
  cases hwb

theorem wp_updateWithHighestPc {highestPc : PhaseCertificate} (h : Synced I log c w)
    (hsettled : Settled w) :
    wp (BlockSyncClient.updateWithHighestPc cr fuel highestPc) (fun _ => Synced I log c)
      (I.Halted log) w := by
  have hready := h.1
  have hchain : w.mem.config.chainId = config.chainId := by
    rw [hready.1]
    rfl
  unfold BlockSyncClient.updateWithHighestPc
  rw [wp_bind, wp_mem, wp_bind, wp_store, hchain]
  refine wp_both h.halted (fun hcorrect hsafe => ?_) h
  simp only [if_true, wp_bind, wp_lift, wp_write]
  refine ⟨fun updated hwb => ?_, fun _ _ => h.halted⟩
  obtain ⟨wb, updates⟩ := updated
  rw [hready.2.tree_eq] at hcorrect hsafe hwb
  have hopen := I.synced hready.2.isOpen ⟨h.2, hsettled⟩ hcorrect hsafe hwb
  exact h.emit ⟨hready.1, hready.2.emit hopen⟩

/-- A block is inserted and its justify acted upon, unless the block is refused. -/
theorem wp_syncBlock {block : Block} (happ : apps app) (h : Synced I log c w) :
    wp (BlockSyncClient.syncBlock cr app fuel block)
      (fun accepted w' => Synced I log c w' ∧ (accepted = true → Settled w')) (I.Halted log) w := by
  have hready := h.1
  have hopen := hready.2.isOpen
  have htree := hready.2.tree_eq
  have hchain : w.mem.config.chainId = config.chainId := by
    rw [hready.1]
    rfl
  unfold BlockSyncClient.syncBlock
  rw [wp_bind, wp_mem, wp_bind, wp_store, hchain]
  refine wp_both h.halted (fun hcorrect hsafe => ?_)
    ⟨h, fun hfalse => absurd hfalse Bool.false_ne_true⟩
  simp only [Bool.not_true, Bool.false_eq_true, if_false, wp_bind, wp_lift]
  refine ⟨fun view _ => ?_, fun _ _ => h.halted⟩
  cases hanswer : app.validateBlockForSync block view with
  | invalid => exact ⟨h, fun hfalse => absurd hfalse Bool.false_ne_true⟩
  | valid appStateUpdates validatorSetUpdates =>
    simp only [wp_bind, wp_write, wp_store, wp_lift]
    rw [htree] at hcorrect hsafe ⊢
    have hvalid : app.Validates block appStateUpdates validatorSetUpdates :=
      ⟨view, .inr hanswer⟩
    have hinserted := h.halted.emit (I.insert hopen hcorrect hsafe happ hvalid)
    refine ⟨fun updated hwb => ?_, fun _ _ => hinserted⟩
    obtain ⟨wb, updates⟩ := updated
    rw [World.tree_emit, htree] at hwb
    obtain ⟨hhalt, hopen'⟩ := I.updateInserted hopen hcorrect hsafe happ hvalid hwb
    have hwritten := hinserted.emit (e := .write wb) hhalt
    obtain ⟨peer, request, hmem⟩ := h.2
    cases updates with
    | none =>
      refine ⟨⟨⟨hready.1, hwritten, hopen'⟩, peer, request, ?_⟩, fun _ => ?_⟩
      · exact List.mem_append_left _ (List.mem_append_left _ hmem)
      · exact settled_write (BlockTree.not_inserts_updateBatch hwb)
    | some updates =>
      refine ⟨⟨⟨hready.1, hwritten.emit (I.halt hopen'), hopen'⟩, peer, request, ?_⟩,
        fun _ => settled_act⟩
      exact List.mem_append_left _ (List.mem_append_left _ (List.mem_append_left _ hmem))

theorem keeps_syncBlocks {highestPc : PhaseCertificate} (happ : apps app) (blocks : List Block) :
    ∀ blocksSynced, Keeps (Synced I log c) (I.Halted log)
      (BlockSyncClient.syncBlocks cr app fuel highestPc blocks blocksSynced) := by
  induction blocks with
  | nil => exact fun _ => .pure _
  | cons block rest ih =>
    intro blocksSynced w h
    rw [BlockSyncClient.syncBlocks, wp_bind]
    refine wp_mono (wp_syncBlock happ h) (fun accepted w' hw' => ?_) fun _ => id
    obtain ⟨h', hsettled⟩ := hw'
    cases accepted with
    | false => exact h'
    | true =>
      rw [if_pos rfl, wp_bind]
      exact wp_mono (wp_updateWithHighestPc h' (hsettled rfl)) (fun _ w'' => ih _ w'') fun _ => id

theorem wp_syncLoop {peer : VerifyingKey} {initHeight : BlockHeight} (happ : apps app)
    (responses : List BlockSyncResponse) :
    ∀ blocksSynced w, Ready I log c w →
      wp (BlockSyncClient.syncLoop cr app fuel now peer initHeight responses blocksSynced)
        (fun _ => Ready I log c) (I.Halted log) w := by
  induction responses with
  | nil =>
    intro blocksSynced w h
    rw [BlockSyncClient.syncLoop]
    refine wp_request_bind h fun w' h' => ?_
    exact wp_mono (keeps_endSync w' h') (fun _ _ h'' => h''.1) fun _ => id
  | cons response responses ih =>
    intro blocksSynced w h
    rw [BlockSyncClient.syncLoop]
    refine wp_request_bind h fun w' h' => ?_
    rw [wp_bind, wp_store]
    dsimp only
    rw [wp_ite]
    split
    · exact wp_mono (keeps_endSync w' h') (fun _ _ h'' => h''.1) fun _ => id
    · rw [wp_bind]
      refine wp_mono (keeps_syncBlocks happ _ _ w' h') (fun result w'' h'' => ?_) fun _ => id
      obtain ⟨accepted, synced⟩ := result
      cases accepted with
      | true => exact ih synced w'' h''.1
      | false => exact wp_mono (keeps_blacklist w'' h'') (fun _ _ h => h.1) fun _ => id

theorem keeps_sync {choice : Nat} {responses : List BlockSyncResponse} (happ : apps app) :
    Keeps (Ready I log c) (I.Halted log)
      (BlockSyncClient.sync cr app fuel now choice responses) := by
  have htail : Keeps (Ready I log c) (I.Halted log) (do
      let client ← (mem : BlockSyncClient.Handler _)
      setMem { client with state := { client.state with lastProgressOrSyncTime := now } }) :=
    .bind_mem fun _ h => .setMem fun _ h' => h'.setMem h.1
  refine .bind .mem fun client => .bind .store fun tree => .bind (keeps_lift _) fun minHeight => ?_
  dsimp only
  split
  · refine .bind (.bind .store fun tree => .bind (keeps_lift _) fun initHeight => ?_) fun _ => htail
    exact fun w h => wp_syncLoop happ _ _ w h
  · exact htail

theorem keeps_onReceiveMsg {msg : BlockSyncAdvertiseMessage} {origin : VerifyingKey}
    {choice : Nat} {responses : List BlockSyncResponse} (happ : apps app) :
    Keeps (Ready I log c) (I.Halted log)
      (BlockSyncClient.onReceiveMsg cr app fuel now msg origin choice responses) := by
  cases msg with
  | advertiseBlock msg =>
    exact .bind_mem fun _ h => .bind .store fun tree => .ite (.pure _) <|
      .bind (keeps_lift _) fun isServer => .ite (.pure _) (.setMem fun _ h' => h'.setMem h.1)
  | advertisePc msg =>
    exact .bind .mem fun _ => .bind .store fun tree => .bind (keeps_lift _) fun entered =>
      .ite (.pure _) <| .bind (keeps_lift _) fun difference =>
        .ite (.bind (keeps_lift _) fun isCorrect => .ite (keeps_sync happ) (.pure _)) (.pure _)

theorem keeps_tick {choice : Nat} {responses : List BlockSyncResponse} (happ : apps app) :
    Keeps (Ready I log c) (I.Halted log)
      (BlockSyncClient.tick cr app fuel now choice responses) :=
  .bind_mem fun _ h => .bind .store fun _ => .bind (keeps_lift _) fun _ =>
    .bind (.setMem fun _ h' => h'.setMem h.1) fun _ => .ite (keeps_sync happ) (.pure _)

end BlockSyncClient

end RunInvariant
end HotStuffRs
