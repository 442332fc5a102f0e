import HotStuffRs.Pacemaker.Deadlines
import HotStuffRs.BlockTree.Initial

/-
The discipline of `AdvanceView` messages.

A replica is to broadcast an `AdvanceView` only while it is a validator, and once in each view.
-/

namespace HotStuffRs

open Kv Kv.Process

def Action.advanceView? : Action → Option AdvanceView
  | .broadcast (.progress (.pacemaker (.advanceView msg))) => some msg
  | _ => none

def advanceViews (effects : List (Effect Action Var.Val)) : List AdvanceView :=
  effects.filterMap fun
    | .act a => a.advanceView?
    | .write _ => none

@[simp] theorem advanceViews_nil : advanceViews [] = [] := rfl

theorem advanceViews_concat (effects : List (Effect Action Var.Val)) (e : Effect Action Var.Val) :
    advanceViews (effects ++ [e]) = advanceViews effects ++ advanceViews [e] :=
  List.filterMap_append ..

namespace Pacemaker

variable {cr : Crypto} {now : Instant} {pm : Pacemaker} {w : World Pacemaker Action Var.Val}

/-! ## One call -/

/-- A call of the pacemaker: a tick, or a message with its sender.  Other parts of the replica
may have changed the block tree since the last call. -/
structure Call where
  cr : Crypto
  now : Instant
  tree : BlockTree
  message : Option (PacemakerMessage × VerifyingKey)

namespace Call

def handler (call : Call) : Handler Unit :=
  match call.message with
  | none => tick call.cr call.now
  | some (msg, origin) => onReceiveMsg call.cr call.now msg origin

def run (call : Call) (pm : Pacemaker) : EStateM.Result Failure (World Pacemaker Action Var.Val) Unit :=
  call.handler { mem := pm, base := call.tree, effects := [] }

/-- The `AdvanceView`s that a call broadcasts, also when it fails. -/
def advanceViews (call : Call) (pm : Pacemaker) : List AdvanceView :=
  match call.run pm with
  | .ok _ w | .error _ w => HotStuffRs.advanceViews w.effects

end Call

/-- What has been broadcast, and when the last `AdvanceView` was. -/
def Sent (msgs : List AdvanceView) (lastAdvanceView : Option ViewNumber)
    (w : World Pacemaker Action Var.Val) : Prop :=
  advanceViews w.effects = msgs ∧ w.mem.state.lastAdvanceView = lastAdvanceView

namespace Sent

variable {msgs : List AdvanceView} {lastAdvanceView : Option ViewNumber}

theorem emit (h : Sent msgs lastAdvanceView w) {e : Effect Action Var.Val}
    (he : advanceViews [e] = []) : Sent msgs lastAdvanceView (w.emit e) := by
  refine ⟨?_, h.2⟩
  rw [World.effects_emit, advanceViews_concat, he, List.append_nil]
  exact h.1

theorem setMem (h : Sent msgs lastAdvanceView w) {m : Pacemaker}
    (hm : m.state.lastAdvanceView = w.mem.state.lastAdvanceView) :
    Sent msgs lastAdvanceView (w.setMem m) :=
  ⟨h.1, hm.trans h.2⟩

end Sent

/-- A handler that broadcasts no `AdvanceView`. -/
abbrev Silent {α : Type} (m : Handler α) : Prop :=
  ∀ msgs lastAdvanceView, Keeps (Sent msgs lastAdvanceView) (Sent msgs lastAdvanceView) m

theorem silent_lift {α : Type} (x : Result α) : Silent (lift x) :=
  fun _ _ => .lift (fun _ => id) x

theorem stateFor_lastAdvanceView {nextView : ViewNumber} {state : PacemakerState}
    (h : pm.stateFor nextView now = .ok state) : state.lastAdvanceView = pm.state.lastAdvanceView := by
  simp only [stateFor, Result.bind_eq_ok] at h
  obtain ⟨curEpoch, -, nextEpoch, -, h⟩ := h
  split at h
  · simp only [PacemakerState.updateTimeouts, Result.bind_eq_ok, Result.pure_eq,
      Except.ok.injEq] at h
    obtain ⟨timeouts, -, rfl⟩ := h
    rfl
  · cases h
    rfl

theorem silent_updateView {nextView : ViewNumber} {vss : ValidatorSetState} {msgs : List AdvanceView}
    {lastAdvanceView : Option ViewNumber} (htimed : w.mem.Timed)
    (h : Sent msgs lastAdvanceView w) :
    wp (updateView nextView vss now) (fun _ => Sent msgs lastAdvanceView)
      (Sent msgs lastAdvanceView) w := by
  unfold wp
  rcases htimed.updateView nextView vss now with ⟨heq, -⟩ | ⟨heq, -⟩ | ⟨state, deadline, heq, -, -, hstate⟩
  · rw [heq]
    exact h
  · rw [heq]
    exact h
  · rw [heq]
    have hlast := stateFor_lastAdvanceView hstate
    exact h.setMem hlast

theorem silent_extendView : Silent (extendView now) := fun _ _ =>
  .bind_mem fun _ hw => .bind (silent_lift _ _ _) fun _ => .ite (.throw (fun _ => id) _)
    (.bind (silent_lift _ _ _) fun _ => .setMem fun _ hw' => ⟨hw'.1, hw.2⟩)

/-- After an `AdvanceView` was broadcast in the current view. -/
theorem wp_advance {certificate : ProgressCertificate} {msgs : List AdvanceView}
    {lastAdvanceView : Option ViewNumber} {E : World Pacemaker Action Var.Val → Prop}
    (h : Sent msgs lastAdvanceView w) :
    wp (advance certificate)
      (fun _ => Sent (msgs ++ [⟨certificate⟩]) (some w.mem.viewInfo.view)) E w := by
  refine ⟨?_, rfl⟩
  show advanceViews (w.effects ++ [_]) = _
  rw [advanceViews_concat, h.1]
  rfl

/-- How a call ends that broadcasts an `AdvanceView` only as a validator that has not done so in
the current view. -/
def AsValidator (pm : Pacemaker) (tree : BlockTree) (w : World Pacemaker Action Var.Val) : Prop :=
  Sent [] pm.state.lastAdvanceView w ∨
    ∃ certificate, Sent [⟨certificate⟩] (some pm.viewInfo.view) w ∧ pm.notAdvancedYet = true ∧
      ∃ vss, tree.kv.validatorSetState = .ok vss ∧ isValidator pm.config.me vss = true

theorem onTimeout_silent {vss : ValidatorSetState} {msgs : List AdvanceView}
    {lastAdvanceView : Option ViewNumber} (htimed : w.mem.Timed) (h : Sent msgs lastAdvanceView w) :
    wp (onTimeout cr now vss) (fun _ => Sent msgs lastAdvanceView) (Sent msgs lastAdvanceView) w := by
  unfold onTimeout
  simp only [wp_bind, wp_mem, wp_store, wp_lift]
  refine ⟨fun isEpochChange _ => ?_, fun _ _ => h⟩
  rw [wp_ite]
  split
  · split
    · simp only [wp_bind, wp_lift]
      refine ⟨fun highestTc _ => ?_, fun _ _ => h⟩
      exact silent_extendView _ _ _ (h.emit rfl)
    · exact silent_extendView _ _ _ h
  · simp only [wp_bind, wp_lift]
    exact ⟨fun nextView _ => silent_updateView htimed h, fun _ _ => h⟩

theorem tick_asValidator (htimed : w.mem.Timed) (h : Sent [] w.mem.state.lastAdvanceView w) :
    wp (tick cr now) (fun _ => AsValidator w.mem w.tree) (AsValidator w.mem w.tree) w := by
  unfold tick
  simp only [wp_bind, wp_mem, wp_store, wp_lift]
  refine ⟨fun vss hvss => ?_, fun _ _ => .inl h⟩
  rw [wp_ite]
  split
  · exact wp_mono (onTimeout_silent htimed h) (fun _ _ => .inl) fun _ => .inl
  · have hset : ∀ m : Pacemaker, m.state.lastAdvanceView = w.mem.state.lastAdvanceView →
        Sent [] w.mem.state.lastAdvanceView (w.setMem m) := fun m hm => h.setMem hm
    simp only [wp_bind, wp_setMem, wp_lift]
    refine ⟨fun highestPc _ => ?_, fun _ _ => .inl (hset _ rfl)⟩
    rw [wp_ite]
    split
    · rename_i hguard
      refine wp_mono (wp_advance (hset _ rfl)) (fun _ w' hsent => ?_) fun _ => id
      exact .inr ⟨_, hsent, hguard.2.2.2, vss, hvss, hguard.2.2.1⟩
    · exact .inl (hset _ rfl)

theorem onReceiveAdvanceView_asValidator {advanceView : AdvanceView} {origin : VerifyingKey}
    (htimed : w.mem.Timed) (h : Sent [] w.mem.state.lastAdvanceView w) :
    wp (onReceiveAdvanceView cr now advanceView origin) (fun _ => AsValidator w.mem w.tree)
      (AsValidator w.mem w.tree) w := by
  unfold onReceiveAdvanceView
  simp only [wp_bind, wp_mem, wp_store, wp_lift]
  refine ⟨fun vss hvss => ?_, fun _ _ => .inl h⟩
  rw [wp_ite]
  split
  · simp only [wp_bind, wp_lift]
    refine ⟨fun isValid _ => ?_, fun _ _ => .inl h⟩
    rw [wp_ite]
    split
    · rw [wp_bind]
      have hupdated : wp (updateHighestTc advanceView.progressCertificate)
          (fun _ w' => Sent [] w.mem.state.lastAdvanceView w' ∧ w'.mem = w.mem)
          (Sent [] w.mem.state.lastAdvanceView) w := by
        cases advanceView.progressCertificate with
        | phaseCertificate pc => exact ⟨h, rfl⟩
        | timeoutCertificate tc =>
          simp only [updateHighestTc, wp_bind, wp_store, wp_lift, wp_ite, wp_write]
          refine ⟨fun isHigher _ => ?_, fun _ _ => h⟩
          split
          · exact ⟨h.emit rfl, rfl⟩
          · exact ⟨h, rfl⟩
      refine wp_mono hupdated (fun _ w₁ ⟨hsent, hmem⟩ => ?_) fun _ => .inl
      split
      · rename_i hguard
        rw [wp_bind]
        refine wp_mono (wp_and_run (wp_advance hsent)) (fun _ w₂ ⟨hsent₂, hrun⟩ => ?_) fun _ => id
        have htimed₁ : w₁.mem.Timed := hmem ▸ htimed
        have htimed₂ : w₂.mem.Timed := wp_ok ((closed_timed now).keeps_advance _ _ htimed₁) hrun
        have hend : ∀ w', Sent [⟨advanceView.progressCertificate⟩] (some w₁.mem.viewInfo.view) w' →
            AsValidator w.mem w.tree w' := fun w' h' =>
          .inr ⟨_, hmem ▸ h', hguard.2, vss, hvss, hguard.1⟩
        simp only [wp_bind, wp_lift]
        refine ⟨fun nextView _ => ?_, fun _ _ => hend _ hsent₂⟩
        exact wp_mono (silent_updateView htimed₂ hsent₂) (fun _ => hend) hend
      · simp only [wp_bind, wp_lift]
        refine ⟨fun nextView _ => ?_, fun _ _ => .inl hsent⟩
        exact wp_mono (silent_updateView (hmem ▸ htimed) hsent) (fun _ _ => .inl) fun _ => .inl
    · exact .inl h
  · exact .inl h

/-- A timeout vote is collected, and completes `tc`. -/
def Completes (cr : Crypto) (pm : Pacemaker) (tree : BlockTree) (vss : ValidatorSetState)
    (timeoutVote : TimeoutVote) (origin : VerifyingKey) (tc : TimeoutCertificate) : Prop :=
  tree.kv.validatorSetState = .ok vss ∧ isValidator origin vss = true ∧
    timeoutVote.isCorrect cr origin = true ∧
    isEpochChangeView timeoutVote.view pm.config.epochLength = .ok true ∧
    (∃ fallback, fallbackTc cr tree timeoutVote = .ok fallback) ∧
    ∃ collectors, pm.state.timeoutVoteCollectors.collect origin timeoutVote = .ok (some tc, collectors)

/-- When `onCollectTc` broadcasts. -/
def CollectGuard (pm : Pacemaker) (vss : ValidatorSetState) : Prop :=
  (isValidator pm.config.me vss = true ∧ pm.state.lastAdvanceView = none) ∨
    pm.state.lastAdvanceView.any (· < pm.viewInfo.view) = true

theorem onCollectTc_sent {vss : ValidatorSetState} {newTc : TimeoutCertificate}
    (h : Sent [] w.mem.state.lastAdvanceView w) :
    wp (onCollectTc vss newTc)
      (fun _ w' => (isHigherTc w.tree newTc = .ok true ∧ CollectGuard w.mem vss ∧
          Sent [⟨.timeoutCertificate newTc⟩] (some w.mem.viewInfo.view) w') ∨
        (¬(isHigherTc w.tree newTc = .ok true ∧ CollectGuard w.mem vss) ∧
          Sent [] w.mem.state.lastAdvanceView w'))
      (fun w' => isHigherTc w.tree newTc ≠ .ok true ∧ Sent [] w.mem.state.lastAdvanceView w') w := by
  unfold onCollectTc
  simp only [wp_bind, wp_mem, wp_store, wp_lift]
  refine ⟨fun isHigher hhigher => ?_, fun e he => ⟨by rw [he]; exact (nomatch ·), h⟩⟩
  rw [wp_ite]
  split
  · rename_i htrue
    have hwritten := h.emit (e := .write (WriteBatch.setHighestTc newTc)) rfl
    rw [wp_bind, wp_write, wp_ite]
    split
    · rename_i hguard
      refine wp_mono (wp_advance hwritten) (fun _ w' hsent => ?_) fun _ => id
      exact .inl ⟨htrue ▸ hhigher, hguard, hsent⟩
    · rename_i hguard
      exact .inr ⟨fun hboth => hguard hboth.2, hwritten⟩
  · rename_i hfalse
    refine .inr ⟨fun hboth => ?_, h⟩
    rw [hhigher] at hboth
    exact hfalse (Except.ok.inj hboth.1)

theorem onFallbackTc_silent {vss : ValidatorSetState} {tc : TimeoutCertificate}
    {msgs : List AdvanceView} {lastAdvanceView : Option ViewNumber} (htimed : w.mem.Timed)
    (h : Sent msgs lastAdvanceView w) :
    wp (onFallbackTc now vss tc) (fun _ => Sent msgs lastAdvanceView)
      (Sent msgs lastAdvanceView) w := by
  unfold onFallbackTc
  simp only [wp_bind, wp_store, wp_lift]
  refine ⟨fun isHigher _ => ?_, fun _ _ => h⟩
  rw [wp_ite]
  split
  · have hwritten := h.emit (e := .write (WriteBatch.setHighestTc tc)) rfl
    simp only [wp_bind, wp_write, wp_lift]
    exact ⟨fun nextView _ => silent_updateView htimed hwritten, fun _ _ => hwritten⟩
  · exact h

/-- A timeout vote makes the replica broadcast `tc`. -/
def Broadcasts (cr : Crypto) (pm : Pacemaker) (tree : BlockTree) (vss : ValidatorSetState)
    (timeoutVote : TimeoutVote) (origin : VerifyingKey) (tc : TimeoutCertificate) : Prop :=
  Completes cr pm tree vss timeoutVote origin tc ∧ isHigherTc tree tc = .ok true ∧
    CollectGuard pm vss

/-- How the handling of a timeout vote that is received in `w` ends. -/
def Handled (cr : Crypto) (w : World Pacemaker Action Var.Val) (timeoutVote : TimeoutVote)
    (origin : VerifyingKey) (w' : World Pacemaker Action Var.Val) : Prop :=
  (∃ vss tc, Broadcasts cr w.mem w.tree vss timeoutVote origin tc ∧
    Sent [⟨.timeoutCertificate tc⟩] (some w.mem.viewInfo.view) w') ∨
  ((∀ vss tc, ¬Broadcasts cr w.mem w.tree vss timeoutVote origin tc) ∧
    Sent [] w.mem.state.lastAdvanceView w')

theorem Completes.eq {tree : BlockTree} {vss vss' : ValidatorSetState} {timeoutVote : TimeoutVote}
    {origin : VerifyingKey} {tc tc' : TimeoutCertificate}
    (h : Completes cr pm tree vss timeoutVote origin tc)
    (h' : Completes cr pm tree vss' timeoutVote origin tc') : vss' = vss ∧ tc' = tc := by
  obtain ⟨hvss, -, -, -, -, _, hcollect⟩ := h
  obtain ⟨hvss', -, -, -, -, _, hcollect'⟩ := h'
  rw [hvss] at hvss'
  rw [hcollect] at hcollect'
  cases hvss'
  cases hcollect'
  exact ⟨rfl, rfl⟩

/-- Where no timeout certificate is completed, none is broadcast. -/
theorem Handled.of_not_completes {timeoutVote : TimeoutVote} {origin : VerifyingKey}
    {w' : World Pacemaker Action Var.Val}
    (hnone : ∀ vss tc, ¬Completes cr w.mem w.tree vss timeoutVote origin tc)
    (h : Sent [] w.mem.state.lastAdvanceView w') : Handled cr w timeoutVote origin w' :=
  .inr ⟨fun vss tc hbroadcasts => hnone vss tc hbroadcasts.1, h⟩

theorem onCollectTc_handled {vss : ValidatorSetState} {timeoutVote : TimeoutVote}
    {origin : VerifyingKey} {newTc : TimeoutCertificate}
    {collectors : ActiveCollectorPair TimeoutVoteCollector}
    (hcompletes : Completes cr w.mem w.tree vss timeoutVote origin newTc)
    (h : Sent [] w.mem.state.lastAdvanceView w) :
    wp (onCollectTc vss newTc) (fun _ => Handled cr w timeoutVote origin)
      (Handled cr w timeoutVote origin) (w.setMem { w.mem with
        state := { w.mem.state with timeoutVoteCollectors := collectors } }) := by
  have hset : Sent [] w.mem.state.lastAdvanceView (w.setMem { w.mem with
      state := { w.mem.state with timeoutVoteCollectors := collectors } }) := h.setMem rfl
  have hnot : ¬(isHigherTc w.tree newTc = .ok true ∧ CollectGuard w.mem vss) →
      ∀ vss' tc, ¬Broadcasts cr w.mem w.tree vss' timeoutVote origin tc := by
    intro hguard vss' tc hbroadcasts
    obtain ⟨rfl, rfl⟩ := hcompletes.eq hbroadcasts.1
    exact hguard hbroadcasts.2
  refine wp_mono (onCollectTc_sent hset) (fun _ w' hend => ?_) fun w' hend => ?_
  · rcases hend with ⟨hhigher, hguard, hsent⟩ | ⟨hguard, hsent⟩
    · exact .inl ⟨vss, newTc, ⟨hcompletes, hhigher, hguard⟩, hsent⟩
    · exact .inr ⟨hnot hguard, hsent⟩
  · exact .inr ⟨hnot fun hboth => hend.1 hboth.1, hend.2⟩

/-- A timeout vote makes the replica broadcast just if it completes a higher timeout certificate,
and `onCollectTc` lets it. -/
theorem onReceiveTimeoutVote_handled {timeoutVote : TimeoutVote} {origin : VerifyingKey}
    (htimed : w.mem.Timed) (h : Sent [] w.mem.state.lastAdvanceView w) :
    wp (onReceiveTimeoutVote cr now timeoutVote origin)
      (fun _ => Handled cr w timeoutVote origin) (Handled cr w timeoutVote origin) w := by
  unfold onReceiveTimeoutVote
  simp only [wp_bind, wp_mem, wp_store, wp_lift]
  refine ⟨fun vss hvss => ?_, fun e he => .of_not_completes (fun vss tc hcompletes => ?_) h⟩
  · rw [wp_ite]
    split
    · rename_i haccepted
      simp only [wp_bind, wp_lift]
      refine ⟨fun isEpochChange hepoch => ?_,
        fun e he => .of_not_completes (fun vss tc hcompletes => ?_) h⟩
      · rw [wp_ite]
        split
        · rename_i htrue
          simp only [wp_bind, wp_lift]
          refine ⟨fun fallback hfallback => ⟨fun ⟨newTc, collectors⟩ hcollect => ?_,
            fun e he => .of_not_completes (fun vss tc hcompletes => ?_) h⟩,
            fun e he => .of_not_completes (fun vss tc hcompletes => ?_) h⟩
          · rw [wp_setMem]
            cases newTc with
            | some newTc =>
              exact onCollectTc_handled ⟨hvss, haccepted.1, haccepted.2, htrue ▸ hepoch,
                ⟨fallback, hfallback⟩, collectors, hcollect⟩ h
            | none =>
              have hset : Sent [] w.mem.state.lastAdvanceView (w.setMem { w.mem with
                  state := { w.mem.state with timeoutVoteCollectors := collectors } }) :=
                h.setMem rfl
              have hend : ∀ w', Sent [] w.mem.state.lastAdvanceView w' →
                  Handled cr w timeoutVote origin w' := by
                refine fun w' => .of_not_completes fun vss' tc hcompletes => ?_
                obtain ⟨-, -, -, -, -, _, hcollect'⟩ := hcompletes
                rw [hcollect] at hcollect'
                cases hcollect'
              cases fallback with
              | some tc =>
                have htimed' := (closed_timed now).collect _ _ _ _ collectors htimed hcollect
                exact wp_mono (onFallbackTc_silent htimed' hset) (fun _ => hend) hend
              | none => exact hend _ hset
          · obtain ⟨-, -, -, -, -, _, hcollect⟩ := hcompletes
            rw [he] at hcollect
            cases hcollect
          · obtain ⟨-, -, -, -, ⟨_, hfallback⟩, -⟩ := hcompletes
            rw [he] at hfallback
            cases hfallback
        · rename_i hfalse
          refine .of_not_completes (fun vss tc hcompletes => ?_) h
          obtain ⟨-, -, -, hepoch', -⟩ := hcompletes
          rw [hepoch] at hepoch'
          exact hfalse (Except.ok.inj hepoch')
      · obtain ⟨-, -, -, hepoch, -⟩ := hcompletes
        rw [he] at hepoch
        cases hepoch
    · rename_i hrefused
      refine .of_not_completes (fun vss' tc hcompletes => ?_) h
      obtain ⟨hvss', horigin, hcorrect, -⟩ := hcompletes
      rw [hvss] at hvss'
      cases hvss'
      exact hrefused ⟨horigin, hcorrect⟩
  · rw [hcompletes.1] at he
    cases he

/-! ## Runs -/

/-- The runs of a pacemaker, with the views in which it has broadcast an `AdvanceView`. -/
inductive Run (config : PacemakerConfiguration) : List ViewNumber → Pacemaker → Prop
  | new {initView : ViewNumber} {vss : ValidatorSetState} {now : Instant} {pm : Pacemaker}
    (h : Pacemaker.new config initView vss now = .ok pm) : Run config [] pm
  | call {views : List ViewNumber} {pm : Pacemaker} {call : Call}
    {w : World Pacemaker Action Var.Val} (h : Run config views pm) (hrun : call.run pm = .ok () w) :
    Run config (views ++ (call.advanceViews pm).map fun _ => pm.viewInfo.view) w.mem

/-- What a call does after a run: it broadcasts an `AdvanceView` only as a validator, and none if
there was one in the current view already. -/
structure Disciplined (views : List ViewNumber) (pm : Pacemaker) (call : Call) : Prop where
  validator : ∀ msg ∈ call.advanceViews pm, ∃ vss, call.tree.kv.validatorSetState = .ok vss ∧
    isValidator pm.config.me vss = true
  once : (views ++ (call.advanceViews pm).map fun _ => pm.viewInfo.view).Nodup

/-- A timeout vote completes a higher timeout certificate when the replica is no validator, but
has broadcast an `AdvanceView` in an earlier view. -/
def CompletesAsOutsider (pm : Pacemaker) (call : Call) : Prop :=
  ∃ timeoutVote origin vss tc, call.message = some (.timeoutVote timeoutVote, origin) ∧
    Completes call.cr pm call.tree vss timeoutVote origin tc ∧
    isHigherTc call.tree tc = .ok true ∧ isValidator pm.config.me vss = false ∧
    pm.state.lastAdvanceView.any (· < pm.viewInfo.view) = true

theorem notAdvancedYet_of_collectGuard {vss : ValidatorSetState} (h : CollectGuard pm vss) :
    pm.notAdvancedYet = true := by
  unfold notAdvancedYet
  rcases h with ⟨-, hnone⟩ | hany
  · rw [hnone]
    rfl
  · cases hlast : pm.state.lastAdvanceView with
    | none => rfl
    | some last =>
      rw [hlast] at hany
      exact hany

/-- A call broadcasts nothing, or one `AdvanceView`, and then it is the first one in the view and
the replica is a validator, or else a timeout vote is completed. -/
theorem call_sent (htimed : pm.Timed) (call : Call) {w : World Pacemaker Action Var.Val}
    (hrun : call.run pm = .ok () w ∨ ∃ e, call.run pm = .error e w) :
    (Sent [] pm.state.lastAdvanceView w ∧ ¬CompletesAsOutsider pm call) ∨
    ∃ msg, Sent [msg] (some pm.viewInfo.view) w ∧ pm.notAdvancedYet = true ∧
      ((∃ vss, call.tree.kv.validatorSetState = .ok vss ∧ isValidator pm.config.me vss = true) ↔
        ¬CompletesAsOutsider pm call) := by
  have hstart : Sent [] pm.state.lastAdvanceView
      { mem := pm, base := call.tree, effects := [] } := ⟨rfl, rfl⟩
  have hends : ∀ {P : World Pacemaker Action Var.Val → Prop},
      wp call.handler (fun _ => P) P { mem := pm, base := call.tree, effects := [] } → P w := by
    intro P hwp
    rcases hrun with hok | ⟨e, herror⟩
    · exact wp_ok hwp hok
    · exact wp_error hwp herror
  -- Ticks and `AdvanceView`s are all right.
  have hasValidator : (∀ vote origin, call.message ≠ some (.timeoutVote vote, origin)) →
      AsValidator pm call.tree w →
      (Sent [] pm.state.lastAdvanceView w ∧ ¬CompletesAsOutsider pm call) ∨
      ∃ msg, Sent [msg] (some pm.viewInfo.view) w ∧ pm.notAdvancedYet = true ∧
        ((∃ vss, call.tree.kv.validatorSetState = .ok vss ∧ isValidator pm.config.me vss = true) ↔
          ¬CompletesAsOutsider pm call) := by
    intro hother h
    have hnot : ¬CompletesAsOutsider pm call := fun ⟨vote, origin, _, _, hmessage, _⟩ =>
      hother vote origin hmessage
    rcases h with hsent | ⟨certificate, hsent, hfirst, hvalidator⟩
    · exact .inl ⟨hsent, hnot⟩
    · exact .inr ⟨_, hsent, hfirst, fun _ => hnot, fun _ => hvalidator⟩
  obtain ⟨cr, now, tree, message⟩ := call
  rcases message with _ | ⟨msg, origin⟩
  · exact hasValidator (fun _ _ => nofun) (hends (tick_asValidator htimed hstart))
  · cases msg with
    | advanceView advanceView =>
      exact hasValidator (fun _ _ => nofun) (hends (onReceiveAdvanceView_asValidator htimed hstart))
    | timeoutVote timeoutVote =>
      rcases hends (onReceiveTimeoutVote_handled htimed hstart) with
        ⟨vss, tc, ⟨hcompletes, hhigher, hguard⟩, hsent⟩ | ⟨hnone, hsent⟩
      · refine .inr ⟨_, hsent, notAdvancedYet_of_collectGuard hguard, ?_, fun hnot => ?_⟩
        · rintro ⟨vss', hvss', hvalidator⟩ ⟨_, _, vss₂, _, -, hcompletes₂, -, houtsider, -⟩
          rw [hcompletes₂.1] at hvss'
          cases hvss'
          rw [hvalidator] at houtsider
          cases houtsider
        · refine ⟨vss, hcompletes.1, ?_⟩
          by_contra houtsider
          rcases hguard with ⟨hvalidator, -⟩ | hany
          · exact houtsider hvalidator
          · exact hnot ⟨timeoutVote, origin, vss, tc, rfl, hcompletes, hhigher,
              Bool.not_eq_true _ ▸ houtsider, hany⟩
      · refine .inl ⟨hsent, ?_⟩
        rintro ⟨vote, origin', vss, tc, hmessage, hcompletes, hhigher, -, hany⟩
        cases hmessage
        exact hnone vss tc ⟨hcompletes, hhigher, .inr hany⟩

theorem advanceViews_of_sent {call : Call} {w : World Pacemaker Action Var.Val}
    {msgs : List AdvanceView} {lastAdvanceView : Option ViewNumber}
    (hrun : call.run pm = .ok () w ∨ ∃ e, call.run pm = .error e w)
    (h : Sent msgs lastAdvanceView w) : call.advanceViews pm = msgs := by
  unfold Call.advanceViews
  rcases hrun with heq | ⟨e, heq⟩
  · rw [heq]
    exact h.1
  · rw [heq]
    exact h.1

theorem Call.exists_run (call : Call) (pm : Pacemaker) :
    ∃ w, call.run pm = .ok () w ∨ ∃ e, call.run pm = .error e w := by
  cases hrun : call.run pm with
  | ok _ w => exact ⟨w, .inl rfl⟩
  | error e w => exact ⟨w, .inr ⟨e, rfl⟩⟩

theorem timed_of_run {call : Call} {w : World Pacemaker Action Var.Val} (htimed : pm.Timed)
    (hrun : call.run pm = .ok () w) : w.mem.Timed := by
  obtain ⟨cr, now, tree, message⟩ := call
  rcases message with _ | ⟨msg, origin⟩
  · exact wp_ok ((closed_timed now).keeps_tick _ htimed) hrun
  · exact wp_ok ((closed_timed now).keeps_onReceiveMsg _ htimed) hrun

/-- Views with an `AdvanceView` are not repeated, and the last one is the highest. -/
structure Recorded (views : List ViewNumber) (pm : Pacemaker) : Prop where
  timed : pm.Timed
  nodup : views.Nodup
  last : ∀ view ∈ views, ∃ last, pm.state.lastAdvanceView = some last ∧ view ≤ last

namespace Recorded

variable {views : List ViewNumber}

/-- No `AdvanceView` was sent in the current view, if none is noted. -/
theorem lt_of_notAdvancedYet (h : Recorded views pm) (hfirst : pm.notAdvancedYet = true)
    (view : ViewNumber) (hview : view ∈ views) : view < pm.viewInfo.view := by
  obtain ⟨last, hlast, hle⟩ := h.last view hview
  rw [notAdvancedYet, hlast, Option.all_some, decide_eq_true_eq] at hfirst
  exact lt_of_le_of_lt hle hfirst

theorem once (h : Recorded views pm) (call : Call) :
    (views ++ (call.advanceViews pm).map fun _ => pm.viewInfo.view).Nodup := by
  obtain ⟨w, hrun⟩ := call.exists_run pm
  rcases call_sent h.timed call hrun with ⟨hsent, -⟩ | ⟨msg, hsent, hfirst, -⟩
  · rw [advanceViews_of_sent hrun hsent, List.map_nil, List.append_nil]
    exact h.nodup
  · rw [advanceViews_of_sent hrun hsent, List.map_singleton]
    refine List.nodup_append.mpr ⟨h.nodup, List.nodup_singleton _, fun a ha b hb => ?_⟩
    rw [List.mem_singleton.mp hb]
    exact ne_of_lt (h.lt_of_notAdvancedYet hfirst a ha)

theorem call (h : Recorded views pm) {call : Call} {w : World Pacemaker Action Var.Val}
    (hrun : call.run pm = .ok () w) :
    Recorded (views ++ (call.advanceViews pm).map fun _ => pm.viewInfo.view) w.mem where
  timed := timed_of_run h.timed hrun
  nodup := h.once call
  last view hview := by
    rcases call_sent h.timed call (.inl hrun) with ⟨hsent, -⟩ | ⟨msg, hsent, hfirst, -⟩
    · rw [advanceViews_of_sent (.inl hrun) hsent, List.map_nil, List.append_nil] at hview
      rw [hsent.2]
      exact h.last view hview
    · rw [advanceViews_of_sent (.inl hrun) hsent, List.map_singleton] at hview
      refine ⟨_, hsent.2, ?_⟩
      rcases List.mem_append.mp hview with hold | hnew
      · exact (h.lt_of_notAdvancedYet hfirst view hold).le
      · exact (List.mem_singleton.mp hnew).le

end Recorded

theorem Run.recorded {config : PacemakerConfiguration} {views : List ViewNumber}
    (h : Run config views pm) : Recorded views pm := by
  induction h with
  | new h => exact ⟨new_timed h, .nil, fun _ hview => nomatch hview⟩
  | call _ hrun ih => exact ih.call hrun

/-- After every run, a call keeps the discipline exactly if it does not complete a higher timeout
certificate while the replica is no validator and has broadcast an `AdvanceView` in an earlier
view.  Never is there a second one in a view. -/
theorem disciplined_iff {config : PacemakerConfiguration} {views : List ViewNumber}
    (h : Run config views pm) (call : Call) :
    Disciplined views pm call ↔ ¬CompletesAsOutsider pm call := by
  obtain ⟨w, hrun⟩ := call.exists_run pm
  rcases call_sent h.recorded.timed call hrun with ⟨hsent, hnot⟩ | ⟨msg, hsent, -, hiff⟩
  · refine ⟨fun _ => hnot, fun _ => ⟨fun msg hmsg => ?_, h.recorded.once call⟩⟩
    rw [advanceViews_of_sent hrun hsent] at hmsg
    cases hmsg
  · rw [← hiff]
    have hmsgs := advanceViews_of_sent hrun hsent
    constructor
    · intro hdisciplined
      exact hdisciplined.validator msg (hmsgs ▸ List.mem_singleton_self msg)
    · intro hvalidator
      exact ⟨fun _ _ => hvalidator, h.recorded.once call⟩

namespace Sample

def all : ValidatorSet := (ValidatorSet.new.put 1 1).put 2 3

def others : ValidatorSet := ValidatorSet.new.put 2 3

def treeWith (vs : ValidatorSet) : BlockTree := BlockTree.initial UpdateSet.new ⟨vs, vs, none, true⟩

def start : Result Pacemaker := Pacemaker.new ⟨7, 1, 10, 10 ^ 9⟩ 0 ⟨all, all, none, true⟩ 0

def crypto : Crypto := HotStuffRs.Sample.crypto

/-- Validator 2 has a quorum on its own, and advances the replica to view 10. -/
def advance : Call where
  cr := crypto
  now := 1
  tree := treeWith all
  message := some (.advanceView ⟨.phaseCertificate ⟨7, 9, 5, .generic,
    [none, some (crypto.sign 2 (phaseVoteBytes 7 9 5 .generic))]⟩⟩, 2)

/-- Validator 2 times out in view 10, when the replica is no validator any more. -/
def timeout : Call where
  cr := crypto
  now := 2
  tree := treeWith others
  message := some (.timeoutVote ⟨7, 10, crypto.sign 2 (timeoutVoteBytes 7 10), none⟩, 2)

def advanced : Option Pacemaker :=
  start.toOption.bind fun pm =>
    match advance.run pm with
    | .ok _ w => some w.mem
    | .error _ _ => none

end Sample

/-- A validator may advance. -/
theorem disciplined_iff_sample : ∃ pm, Sample.start = .ok pm ∧ Disciplined [] pm Sample.advance := by
  obtain ⟨pm, hstart⟩ : ∃ pm, Sample.start = .ok pm := ⟨_, rfl⟩
  refine ⟨pm, hstart, (disciplined_iff (.new hstart) Sample.advance).mpr ?_⟩
  rintro ⟨_, _, _, _, hmessage, -⟩
  cases hmessage

theorem run_of_advanced {pm : Pacemaker} (h : Sample.advanced = some pm) :
    ∃ views, Run ⟨7, 1, 10, 10 ^ 9⟩ views pm := by
  obtain ⟨pm₀, hstart, hrun⟩ := Option.bind_eq_some_iff.mp h
  have hnew : Sample.start = .ok pm₀ := by
    cases hstart' : Sample.start with
    | error e =>
      rw [hstart'] at hstart
      cases hstart
    | ok pm' =>
      rw [hstart'] at hstart
      cases hstart
      rfl
  cases hcall : Sample.advance.run pm₀ with
  | error e w =>
    rw [hcall] at hrun
    cases hrun
  | ok _ w =>
    rw [hcall] at hrun
    cases hrun
    exact ⟨_, .call (.new hnew) hcall⟩

set_option maxRecDepth 100000 in
theorem advanced_timeout : Sample.advanced.any fun pm =>
    pm.config.me == 1 && !(Sample.timeout.advanceViews pm).isEmpty := by
  decide +kernel

/-- The replica broadcasts an `AdvanceView` after it has left the validator set. -/
theorem not_disciplined : ¬∀ config views pm, Run config views pm → ∀ call,
    Disciplined views pm call := by
  intro h
  cases hadvanced : Sample.advanced with
  | none =>
    have hany := advanced_timeout
    rw [hadvanced] at hany
    cases hany
  | some pm =>
    have hany := advanced_timeout
    rw [hadvanced, Option.any_some, Bool.and_eq_true, beq_iff_eq] at hany
    obtain ⟨hme, hsome⟩ := hany
    obtain ⟨views, hrun⟩ := run_of_advanced hadvanced
    cases hmsgs : Sample.timeout.advanceViews pm with
    | nil =>
      rw [hmsgs] at hsome
      cases hsome
    | cons msg rest =>
      obtain ⟨vss, hvss, hvalidator⟩ := (h _ _ _ hrun Sample.timeout).validator msg
        (hmsgs ▸ List.mem_cons_self)
      cases hvss
      rw [hme] at hvalidator
      revert hvalidator
      decide

end Pacemaker
end HotStuffRs
