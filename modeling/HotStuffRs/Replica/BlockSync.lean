import HotStuffRs.Replica.Pacemaker

namespace HotStuffRs
namespace Protocol
namespace BlockSyncClient

open Kv Kv.Process Lts

variable {cr : Crypto} {config : Configuration} {apps : App → Prop}

/-- The protocol may go on to anything in view `v`. -/
def Ready (cr : Crypto) (config : Configuration) (apps : App → Prop) (a : State)
    (v : ViewNumber) (w : World BlockSyncClient Action Var.Val) : Prop :=
  w.mem.config = config.blockSyncClient ∧ ∃ st, st.IsOpen ∧ At cr config apps a v st w

variable {a : State} {v : ViewNumber} {app : App} {fuel : Nat} {now : Instant}
variable {w : World BlockSyncClient Action Var.Val}

namespace Ready

theorem allowed (h : Ready cr config apps a v w) : AllowedUpTo cr config apps a v w :=
  let ⟨_, _, h⟩ := h.2
  h.allowed

theorem act (h : Ready cr config apps a v w) {x : Action} (hx : x.phaseVote? = none) :
    Ready cr config apps a v (w.emit (.act x)) := by
  obtain ⟨hconfig, st, hst, hat⟩ := h
  exact ⟨hconfig, st, hst, hat.act hx⟩

theorem setMem (h : Ready cr config apps a v w) {m : BlockSyncClient}
    (hm : m.config = config.blockSyncClient) : Ready cr config apps a v (w.setMem m) := by
  obtain ⟨-, st, hst, hat⟩ := h
  exact ⟨hm, st, hst, hat.setMem m⟩

end Ready

theorem keeps_lift {α : Type} (x : Result α) :
    Keeps (Ready cr config apps a v) (AllowedUpTo cr config apps a v) (lift x) :=
  .lift (fun _ h => h.allowed) x

theorem keeps_blacklist {peer : VerifyingKey} :
    Keeps (Ready cr config apps a v) (AllowedUpTo cr config apps a v)
      (BlockSyncClient.blacklist now peer) :=
  .bind_mem fun _ h => .bind (keeps_lift _) fun _ =>
    .bind (.setMem fun _ h' => h'.setMem h.1) fun _ => .pure _

theorem keeps_endSync {peer : VerifyingKey} {initHeight : BlockHeight} {blocksSynced : Nat} :
    Keeps (Ready cr config apps a v) (AllowedUpTo cr config apps a v)
      (BlockSyncClient.endSync now peer initHeight blocksSynced) :=
  .bind .mem fun _ => .bind (keeps_lift _) fun _ => .bind (keeps_lift _) fun _ =>
    .ite keeps_blacklist (.pure _)

theorem keeps_sendRequest {peer : VerifyingKey} :
    Keeps (Ready cr config apps a v) (AllowedUpTo cr config apps a v)
      (BlockSyncClient.sendRequest peer) := by
  refine .bind .mem fun client => .bind .store fun tree => .bind (keeps_lift _) fun height => ?_
  cases height with
  | some height => exact .bind (keeps_lift _) fun _ => .act fun _ h => h.act rfl
  | none => exact .bind (.pure _) fun _ => .act fun _ h => h.act rfl

theorem keeps_responseDeadline :
    Keeps (Ready cr config apps a v) (AllowedUpTo cr config apps a v)
      (BlockSyncClient.responseDeadline now) :=
  .bind .mem fun _ => keeps_lift _

theorem keeps_updateWithHighestPc {highestPc : PhaseCertificate} :
    Keeps (Ready cr config apps a v) (AllowedUpTo cr config apps a v)
      (BlockSyncClient.updateWithHighestPc cr fuel highestPc) := by
  intro w h
  obtain ⟨hconfig, st, hst, hat⟩ := h
  have hchain : w.mem.config.chainId = config.chainId := by rw [hconfig]; rfl
  unfold BlockSyncClient.updateWithHighestPc
  rw [wp_bind, wp_mem, wp_bind, wp_store]
  refine wp_both hat.allowed (fun hcorrect hsafe => ?_) ⟨hconfig, st, hst, hat⟩
  simp only [if_true, wp_bind, wp_lift]
  refine ⟨fun updated hwb => ?_, fun _ _ => hat.allowed⟩
  obtain ⟨wb, updates⟩ := updated
  exact ⟨hconfig, _, .idle, hat.emit (.accept hst hcorrect (hchain ▸ hsafe) hwb)⟩

theorem keeps_syncBlock {block : Block} (happ : apps app) :
    Keeps (Ready cr config apps a v) (AllowedUpTo cr config apps a v)
      (BlockSyncClient.syncBlock cr app fuel block) := by
  intro w h
  obtain ⟨hconfig, st, hst, hat⟩ := h
  have hchain : w.mem.config.chainId = config.chainId := by rw [hconfig]; rfl
  unfold BlockSyncClient.syncBlock
  rw [wp_bind, wp_mem, wp_bind, wp_store]
  refine wp_both hat.allowed (fun hcorrect hsafe => ?_) ⟨hconfig, st, hst, hat⟩
  simp only [Bool.not_true, Bool.false_eq_true, if_false, wp_bind, wp_lift]
  refine ⟨fun view _ => ?_, fun _ _ => hat.allowed⟩
  cases hanswer : app.validateBlockForSync block view with
  | invalid => exact ⟨hconfig, st, hst, hat⟩
  | valid appStateUpdates validatorSetUpdates =>
    simp only [wp_bind, wp_write, wp_store, wp_lift]
    have hinserted := hat.emit
      (.insert hst hcorrect (hchain ▸ hsafe) happ ⟨view, .inr hanswer⟩)
    refine ⟨fun updated hwb => ?_, fun _ _ => hinserted.allowed⟩
    obtain ⟨wb, updates⟩ := updated
    have hupdated := hinserted.emit (.updateInserted hwb)
    cases updates with
    | none => exact ⟨hconfig, _, .mayVote, hupdated⟩
    | some updates => exact ⟨hconfig, _, .mayVote, hupdated.act rfl⟩

theorem keeps_syncBlocks {highestPc : PhaseCertificate} (happ : apps app) (blocks : List Block) :
    ∀ blocksSynced, Keeps (Ready cr config apps a v) (AllowedUpTo cr config apps a v)
      (BlockSyncClient.syncBlocks cr app fuel highestPc blocks blocksSynced) := by
  induction blocks with
  | nil => exact fun _ => .pure _
  | cons block rest ih =>
    exact fun _ => .bind (keeps_syncBlock happ) fun accepted =>
      .ite (.bind keeps_updateWithHighestPc fun _ => ih _) (.pure _)

theorem keeps_syncLoop {peer : VerifyingKey} {initHeight : BlockHeight} (happ : apps app)
    (responses : List BlockSyncResponse) :
    ∀ blocksSynced, Keeps (Ready cr config apps a v) (AllowedUpTo cr config apps a v)
      (BlockSyncClient.syncLoop cr app fuel now peer initHeight responses blocksSynced) := by
  induction responses with
  | nil =>
    exact fun _ => .bind keeps_sendRequest fun _ => .bind keeps_responseDeadline fun _ =>
      keeps_endSync
  | cons response responses ih =>
    exact fun _ => .bind keeps_sendRequest fun _ => .bind keeps_responseDeadline fun _ =>
      .bind .store fun tree => .ite keeps_endSync
        (.bind (keeps_syncBlocks happ _ _) fun _ => .ite (ih _) keeps_blacklist)

theorem keeps_sync {choice : Nat} {responses : List BlockSyncResponse} (happ : apps app) :
    Keeps (Ready cr config apps a v) (AllowedUpTo cr config apps a v)
      (BlockSyncClient.sync cr app fuel now choice responses) := by
  have htail : Keeps (Ready cr config apps a v) (AllowedUpTo cr config apps a v) (do
      let client ← (mem : BlockSyncClient.Handler _)
      setMem { client with state := { client.state with lastProgressOrSyncTime := now } }) :=
    .bind_mem fun _ h => .setMem fun _ h' => h'.setMem h.1
  refine .bind .mem fun client => .bind .store fun tree => .bind (keeps_lift _) fun minHeight => ?_
  dsimp only
  split
  · refine .bind (.bind .store fun tree => .bind (keeps_lift _) fun initHeight => ?_) fun _ => htail
    exact keeps_syncLoop happ _ _
  · exact htail

theorem keeps_onReceiveMsg {msg : BlockSyncAdvertiseMessage} {origin : VerifyingKey}
    {choice : Nat} {responses : List BlockSyncResponse} (happ : apps app) :
    Keeps (Ready cr config apps a v) (AllowedUpTo cr config apps a v)
      (BlockSyncClient.onReceiveMsg cr app fuel now msg origin choice responses) := by
  cases msg with
  | advertiseBlock msg =>
    exact .bind_mem fun _ h => .bind .store fun tree => .ite (.pure _) <|
      .bind (keeps_lift _) fun isServer => .ite (.pure _) (.setMem fun _ h' => h'.setMem h.1)
  | advertisePc msg =>
    exact .bind .mem fun _ => .bind .store fun tree => .bind (keeps_lift _) fun entered =>
      .ite (.pure _) <| .bind (keeps_lift _) fun difference =>
        .ite (.bind (keeps_lift _) fun isCorrect => .ite (keeps_sync happ) (.pure _)) (.pure _)

theorem keeps_tick {choice : Nat} {responses : List BlockSyncResponse} (happ : apps app) :
    Keeps (Ready cr config apps a v) (AllowedUpTo cr config apps a v)
      (BlockSyncClient.tick cr app fuel now choice responses) :=
  .bind_mem fun _ h => .bind .store fun _ => .bind (keeps_lift _) fun _ =>
    .bind (.setMem fun _ h' => h'.setMem h.1) fun _ => .ite (keeps_sync happ) (.pure _)

end BlockSyncClient
end Protocol
end HotStuffRs
