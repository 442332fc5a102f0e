import HotStuffRs.Replica.HotStuff

namespace HotStuffRs
namespace Protocol
namespace Pacemaker

open Kv Kv.Process Lts

variable {cr : Crypto} {config : Configuration} {apps : App → Prop}

/-- The pacemaker is in view `p` or a later one, and the protocol may go on to anything
in view `v`. -/
def Ready (cr : Crypto) (config : Configuration) (apps : App → Prop) (a : State)
    (v p : ViewNumber) (w : World Pacemaker Action Var.Val) : Prop :=
  p ≤ w.mem.viewInfo.view ∧ ∃ st, st.IsOpen ∧ At cr config apps a v st w

variable {a : State} {v p : ViewNumber} {w : World Pacemaker Action Var.Val}

namespace Ready

theorem allowed (h : Ready cr config apps a v p w) : AllowedUpTo cr config apps a v w :=
  let ⟨_, _, h⟩ := h.2
  h.allowed

theorem act (h : Ready cr config apps a v p w) {x : Action} (hx : x.phaseVote? = none) :
    Ready cr config apps a v p (w.emit (.act x)) := by
  obtain ⟨hp, st, hst, hat⟩ := h
  exact ⟨hp, st, hst, hat.act hx⟩

theorem setMem (h : Ready cr config apps a v p w) {m : Pacemaker} (hm : p ≤ m.viewInfo.view) :
    Ready cr config apps a v p (w.setMem m) := by
  obtain ⟨-, st, hst, hat⟩ := h
  exact ⟨hm, st, hst, hat.setMem m⟩

/-- A higher timeout certificate may be stored. -/
theorem setHighestTc (h : Ready cr config apps a v p w) {tc : TimeoutCertificate}
    (hhigher : Pacemaker.isHigherTc w.tree tc = .ok true) :
    Ready cr config apps a v p (w.emit (.write (WriteBatch.setHighestTc tc))) := by
  obtain ⟨hp, st, hst, hat⟩ := h
  refine ⟨hp, _, .idle, hat.emit (.setHighestTc hst ?_)⟩
  simpa [Pacemaker.isHigherTc] using hhigher

end Ready

theorem keeps_lift {α : Type} (x : Result α) :
    Keeps (Ready cr config apps a v p) (AllowedUpTo cr config apps a v) (lift x) :=
  .lift (fun _ h => h.allowed) x

theorem keeps_updateView {nextView : ViewNumber} {vss : ValidatorSetState} {now : Instant} :
    Keeps (Ready cr config apps a v p) (AllowedUpTo cr config apps a v)
      (Pacemaker.updateView nextView vss now) := by
  refine .bind_mem fun w h => ?_
  split
  · exact .throw (fun _ h => h.allowed) _
  · rename_i hview
    have hnext : p ≤ nextView := le_trans h.1 (le_of_lt (not_le.mp hview))
    refine .bind (keeps_lift _) fun curEpoch => .bind (keeps_lift _) fun nextEpoch => .ite ?_ ?_
    · exact .bind (keeps_lift _) fun state => .bind (keeps_lift _) fun deadline =>
        .setMem fun _ h => h.setMem hnext
    · exact .bind (.pure _) fun state => .bind (keeps_lift _) fun deadline =>
        .setMem fun _ h => h.setMem hnext

theorem keeps_extendView {now : Instant} :
    Keeps (Ready cr config apps a v p) (AllowedUpTo cr config apps a v)
      (Pacemaker.extendView now) := by
  refine .bind_mem fun w h => .bind (keeps_lift _) fun isEpochChange => .ite ?_ ?_
  · exact .throw (fun _ h => h.allowed) _
  · exact .bind (keeps_lift _) fun deadline => .setMem fun _ h' => h'.setMem h.1

theorem keeps_broadcast (msg : PacemakerMessage) :
    Keeps (Ready cr config apps a v p) (AllowedUpTo cr config apps a v) (Pacemaker.broadcast msg) :=
  .act fun _ h => h.act rfl

theorem keeps_advance (certificate : ProgressCertificate) :
    Keeps (Ready cr config apps a v p) (AllowedUpTo cr config apps a v)
      (Pacemaker.advance certificate) :=
  .bind (keeps_broadcast _) fun _ => .bind_mem fun _ h => .setMem fun _ h' => h'.setMem h.1

theorem keeps_onTimeout {vss : ValidatorSetState} {now : Instant} :
    Keeps (Ready cr config apps a v p) (AllowedUpTo cr config apps a v)
      (Pacemaker.onTimeout cr now vss) := by
  refine .bind .mem fun pm => .bind .store fun tree => .bind (keeps_lift _) fun isEpochChange =>
    .ite ?_ (.bind (keeps_lift _) fun _ => keeps_updateView)
  refine .ite ?_ ?_
  · exact .bind (keeps_lift _) fun highestTc => .bind (keeps_broadcast _) fun _ => keeps_extendView
  · exact keeps_extendView

theorem keeps_tick {now : Instant} :
    Keeps (Ready cr config apps a v p) (AllowedUpTo cr config apps a v) (Pacemaker.tick cr now) := by
  refine .bind_mem fun w h => .bind .store fun tree => .bind (keeps_lift _) fun vss =>
    .ite keeps_onTimeout (.bind (.setMem fun _ h' => h'.setMem h.1) fun _ =>
      .bind (keeps_lift _) fun highestPc => .ite (keeps_advance _) (.pure _))

theorem keeps_onCollectTc {vss : ValidatorSetState} {newTc : TimeoutCertificate} :
    Keeps (Ready cr config apps a v p) (AllowedUpTo cr config apps a v)
      (Pacemaker.onCollectTc vss newTc) := by
  intro w h
  unfold Pacemaker.onCollectTc
  simp only [wp_bind, wp_mem, wp_store, wp_lift, wp_ite, wp_write]
  refine ⟨fun isHigher hhigher => ?_, fun _ _ => h.allowed⟩
  split
  · rename_i htrue
    have hstored := h.setHighestTc (htrue ▸ hhigher)
    split
    · exact keeps_advance _ _ hstored
    · exact hstored
  · exact h

theorem keeps_onFallbackTc {vss : ValidatorSetState} {tc : TimeoutCertificate} {now : Instant} :
    Keeps (Ready cr config apps a v p) (AllowedUpTo cr config apps a v)
      (Pacemaker.onFallbackTc now vss tc) := by
  intro w h
  unfold Pacemaker.onFallbackTc
  simp only [wp_bind, wp_store, wp_lift, wp_ite, wp_write]
  refine ⟨fun isHigher hhigher => ?_, fun _ _ => h.allowed⟩
  split
  · rename_i htrue
    have hstored := h.setHighestTc (htrue ▸ hhigher)
    exact ⟨fun nextView _ => keeps_updateView _ hstored, fun _ _ => hstored.allowed⟩
  · exact h

theorem keeps_onReceiveTimeoutVote {timeoutVote : TimeoutVote} {origin : VerifyingKey}
    {now : Instant} :
    Keeps (Ready cr config apps a v p) (AllowedUpTo cr config apps a v)
      (Pacemaker.onReceiveTimeoutVote cr now timeoutVote origin) := by
  refine .bind_mem fun w h => .bind .store fun tree => .bind (keeps_lift _) fun vss =>
    .ite (.bind (keeps_lift _) fun isEpochChange => .ite ?_ (.pure _)) (.pure _)
  refine .bind (keeps_lift _) fun fallbackTc => .bind (keeps_lift _) fun ⟨newTc, collectors⟩ =>
    .bind (.setMem fun _ h' => h'.setMem h.1) fun _ => ?_
  cases newTc with
  | some newTc => exact keeps_onCollectTc
  | none =>
    cases fallbackTc with
    | some tc => exact keeps_onFallbackTc
    | none => exact .pure _

theorem keeps_updateHighestTc (certificate : ProgressCertificate) :
    Keeps (Ready cr config apps a v p) (AllowedUpTo cr config apps a v)
      (Pacemaker.updateHighestTc certificate) := by
  cases certificate with
  | phaseCertificate pc => exact .pure _
  | timeoutCertificate tc =>
    intro w h
    simp only [Pacemaker.updateHighestTc, wp_bind, wp_store, wp_lift, wp_ite, wp_write]
    refine ⟨fun isHigher hhigher => ?_, fun _ _ => h.allowed⟩
    split
    · rename_i htrue
      exact h.setHighestTc (htrue ▸ hhigher)
    · exact h

theorem keeps_onReceiveAdvanceView {advanceView : AdvanceView} {origin : VerifyingKey}
    {now : Instant} :
    Keeps (Ready cr config apps a v p) (AllowedUpTo cr config apps a v)
      (Pacemaker.onReceiveAdvanceView cr now advanceView origin) := by
  refine .bind .mem fun pm => .bind .store fun tree => .bind (keeps_lift _) fun vss =>
    .ite (.bind (keeps_lift _) fun isValid => .ite ?_ (.pure _)) (.pure _)
  refine .bind (keeps_updateHighestTc _) fun _ => .ite ?_ ?_
  · exact .bind (keeps_advance _) fun _ => .bind (keeps_lift _) fun nextView => keeps_updateView
  · exact .bind (keeps_lift _) fun nextView => keeps_updateView

theorem keeps_onReceiveMsg {msg : PacemakerMessage} {origin : VerifyingKey} {now : Instant} :
    Keeps (Ready cr config apps a v p) (AllowedUpTo cr config apps a v)
      (Pacemaker.onReceiveMsg cr now msg origin) := by
  cases msg with
  | timeoutVote timeoutVote => exact keeps_onReceiveTimeoutVote
  | advanceView advanceView => exact keeps_onReceiveAdvanceView

end Pacemaker
end Protocol
end HotStuffRs
