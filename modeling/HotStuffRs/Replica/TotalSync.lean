import HotStuffRs.Replica.EpochChange
import HotStuffRs.Replica.Total

/-
No sync makes a replica fail.

What the responses bring is checked before it is inserted, so all that a sync server can bring a
replica to is to blacklist it.  The timeouts that the replica is configured with have to be short
enough for the clock, to which they are added.
-/

namespace HotStuffRs

open Kv Kv.Process

/-- The blocks of a response are among `blocks`, and the view of its highest PC can be added to. -/
def BlockSyncResponse.Manageable (blocks : Set Block) (response : BlockSyncResponse) : Prop :=
  (∀ block ∈ response.blocks, block ∈ blocks) ∧ response.highestPc.Bounded

/-- The view of an advertised PC can be compared to `entered`. -/
def BlockSyncAdvertiseMessage.Comparable (entered : ViewNumber) :
    BlockSyncAdvertiseMessage → Prop
  | .advertiseBlock _ => True
  | .advertisePc msg => ¬(entered.val < 2 ^ 63 ∧ 2 ^ 63 ≤ msg.highestPc.view.val ∧
      msg.highestPc.view.val < 2 ^ 63 + entered.val)

/-- The instants that a sync at `now` computes can be represented. -/
structure BlockSyncClientConfiguration.InTime (config : BlockSyncClientConfiguration)
    (now : Instant) : Prop where
  response : now + config.responseTimeout < Instant.limit
  expiry : now + config.blacklistExpiryTime < Instant.limit

variable {cr : Crypto} {apps : App → Prop} {good : ValidatorSet → Prop} {blocks : Set Block}

namespace BlockSyncClient

open BlockTree

variable {app : App} {now : Instant} {w : World BlockSyncClient Action Var.Val}

/-- The tree is still sturdy, and the replica has the same in memory as before. -/
def SyncedFrom (cr : Crypto) (blocks : Set Block) (good : ValidatorSet → Prop)
    (w w' : World BlockSyncClient Action Var.Val) : Prop :=
  Sturdy cr blocks good w'.tree ∧ w'.mem = w.mem

theorem SyncedFrom.trans {w₁ w₂ w₃ : World BlockSyncClient Action Var.Val}
    (h : SyncedFrom cr blocks good w₁ w₂) (h' : SyncedFrom cr blocks good w₂ w₃) :
    SyncedFrom cr blocks good w₁ w₃ :=
  ⟨h'.1, h'.2.trans h.2⟩

theorem SyncedFrom.act (h : Sturdy cr blocks good w.tree) (a : Action) :
    SyncedFrom cr blocks good w (w.emit (.act a)) := by
  refine ⟨?_, rfl⟩
  rw [World.tree_emit]
  exact h

theorem ends_blacklist (h : Sturdy cr blocks good w.tree) (hclock : w.mem.config.InTime now)
    (peer : VerifyingKey) :
    Ends (fun _ => blacklist now peer) (fun _ w' => Sturdy cr blocks good w'.tree) w := by
  have hstate : w.mem.state.blacklistSyncServer peer w.mem.config.blacklistExpiryTime now = .ok _ :=
    BlockSyncClientState.blacklistSyncServer_eq_ok.mpr ⟨hclock.expiry, rfl⟩
  exact .mem_bind (.ok_bind hstate (.of_run rfl h))

section

variable (h : Sturdy cr blocks good w.tree)
include h

/-- A sync ends if its server has advertised no less than where it started. -/
theorem ends_endSync (hclock : w.mem.config.InTime now) {peer : VerifyingKey}
    {initHeight advertised : BlockHeight}
    (hadvertised : w.mem.state.availableSyncServers[peer]? = some advertised)
    (hle : initHeight ≤ advertised) (blocksSynced : Nat) :
    Ends (fun _ => endSync now peer initHeight blocksSynced)
      (fun _ w' => Sturdy cr blocks good w'.tree) w := by
  obtain ⟨minBlocksExpected, hexpected⟩ := U64.exists_sub_of_le hle
  unfold endSync
  refine .mem_bind (.ok_bind (a := advertised) ?_ (.ok_bind hexpected ?_))
  · rw [hadvertised]
    rfl
  · exact .ite (fun _ => ends_blacklist h hclock peer) fun _ => .pure h

variable (hadmissible : Admissible cr blocks)
include hadmissible

theorem ends_sendRequest (peer : VerifyingKey) :
    Ends (fun _ => sendRequest peer) (fun _ => SyncedFrom cr blocks good w) w := by
  unfold sendRequest
  refine .mem_bind (.store_bind (.ok_bind kv_highestCommittedBlockHeight ?_))
  cases hheight : committedHeight w.tree with
  | none => exact .pure_bind (.of_run rfl (.act h _))
  | some height =>
    obtain ⟨b, -, hb⟩ := Option.bind_eq_some_iff.mp hheight
    obtain ⟨start, hstart⟩ : ∃ start, U64.add height 1 = .ok start :=
      U64.exists_add_one_iff.mpr (((h.numbers hadmissible).blocks b).height height hb)
    exact .ok_bind hstart (.of_run rfl (.act h _))

/-- What comes after a request, for which the replica waits until some instant. -/
theorem ends_request_bind (hclock : w.mem.config.InTime now) {peer : VerifyingKey} {α : Type}
    {f : Nat → Handler α} {Q : α → World BlockSyncClient Action Var.Val → Prop}
    (hf : ∀ w', SyncedFrom cr blocks good w w' → Ends f Q w') :
    Ends (fun fuel => do
      sendRequest peer
      let _ ← responseDeadline now
      f fuel) Q w := by
  refine .bind ((ends_sendRequest h hadmissible peer).mono fun _ w' hw' => ?_)
  have hdeadline : Instant.add now w'.mem.config.responseTimeout = .ok _ :=
    Instant.add_eq_ok.mpr ⟨hw'.2 ▸ hclock.response, rfl⟩
  refine .bind (.mem_bind ?_)
  rw [hdeadline]
  exact .of_run (lift_ok _ w') (hf w' hw')

variable (husable : UsableSets apps good)
include husable

theorem ends_updateWithHighestPc {highestPc : PhaseCertificate} (hbounded : highestPc.Bounded) :
    Ends (fun fuel => updateWithHighestPc cr fuel highestPc)
      (fun _ => SyncedFrom cr blocks good w) w := by
  unfold updateWithHighestPc
  refine .mem_bind (.store_bind (.both (h.governed.isCorrect husable.bounded cr highestPc)
    (h.safePc highestPc _) (fun _ hsafe => ?_) (.pure ⟨h, rfl⟩)))
  obtain ⟨⟨wb, updates⟩, n, hupdate⟩ :=
    h.updateBatch hadmissible fun hgenesis => h.stored_of_safePc hsafe hgenesis
  refine .lift_bind ⟨n, hupdate⟩ (.of_run rfl ⟨?_, rfl⟩)
  rw [World.tree_emit]
  exact h.update (hupdate n le_rfl) fun _ => hbounded

theorem ends_syncBlock {block : Block} (hblock : block ∈ blocks) (happ : apps app) :
    Ends (fun fuel => syncBlock cr app fuel block) (fun _ => SyncedFrom cr blocks good w) w := by
  unfold syncBlock
  refine .mem_bind (.store_bind (.both (h.isCorrect husable hadmissible hblock) (h.safeBlock _ _)
    (fun hcorrect hsafe => ?_) (.pure ⟨h, rfl⟩)))
  obtain ⟨view, hview⟩ := h.appView_of_safeBlock hsafe
  refine .lift_bind hview ?_
  cases hanswer : app.validateBlockForSync block view with
  | invalid => exact .pure ⟨h, rfl⟩
  | valid appStateUpdates validatorSetUpdates =>
    have hinserted : Sturdy cr blocks good (w.emit (.write (insertBatch w.tree block
        appStateUpdates validatorSetUpdates))).tree := by
      rw [World.tree_emit]
      refine h.insert hadmissible hblock hcorrect hsafe fun updates hupdates => ?_
      obtain rfl := hupdates
      exact husable.updates app happ _ _ _ ⟨view, .inr hanswer⟩
    have hstored : ¬block.justify.isGenesisPc = true → Stored (w.emit (.write (insertBatch
        w.tree block appStateUpdates validatorSetUpdates))).tree block.justify.block := by
      intro hgenesis
      rw [World.tree_emit]
      exact (stored_insert _).mpr (.inr (h.stored_of_safePc (safePc_of_safeBlock hsafe).1 hgenesis))
    obtain ⟨⟨wb, updates⟩, n, hupdate⟩ := hinserted.updateBatch hadmissible hstored
    have hupdated := hinserted.update (hupdate n le_rfl) fun _ _ =>
      (hadmissible.bounded block hblock).2
    refine .write_bind (.store_bind (.lift_bind ⟨n, hupdate⟩ (.write_bind ?_)))
    cases updates with
    | none =>
      refine .of_run rfl ⟨?_, rfl⟩
      rw [World.tree_emit]
      exact hupdated
    | some updates =>
      refine .of_run rfl ⟨?_, rfl⟩
      rw [World.tree_emit, World.tree_emit]
      exact hupdated

end

/-- Each block is inserted, or ends the sync. -/
theorem ends_syncBlocks (hadmissible : Admissible cr blocks) (husable : UsableSets apps good)
    {highestPc : PhaseCertificate} (hbounded : highestPc.Bounded) (happ : apps app)
    {newBlocks : List Block} (hblocks : ∀ block ∈ newBlocks, block ∈ blocks) (blocksSynced : Nat)
    (h : Sturdy cr blocks good w.tree) :
    Ends (fun fuel => syncBlocks cr app fuel highestPc newBlocks blocksSynced)
      (fun _ => SyncedFrom cr blocks good w) w := by
  induction newBlocks generalizing w blocksSynced with
  | nil => exact .pure ⟨h, rfl⟩
  | cons block rest ih =>
    refine .bind ((ends_syncBlock h hadmissible husable (hblocks block List.mem_cons_self)
      happ).mono fun accepted w₁ hw₁ => ?_)
    cases accepted with
    | false => exact .pure hw₁
    | true =>
      refine .bind ((ends_updateWithHighestPc hw₁.1 hadmissible husable hbounded).mono
        fun _ w₂ hw₂ => ?_)
      have hrest := ih (fun block hblock => hblocks block (List.mem_cons_of_mem _ hblock))
        (blocksSynced + 1) hw₂.1
      exact hrest.mono fun _ _ hw₃ => (hw₁.trans hw₂).trans hw₃

/-- The server that is synced with stays available until the sync ends. -/
theorem ends_syncLoop (hadmissible : Admissible cr blocks) (husable : UsableSets apps good)
    (happ : apps app) {peer : VerifyingKey} {initHeight advertised : BlockHeight}
    (hle : initHeight ≤ advertised) {responses : List BlockSyncResponse}
    (hresponses : ∀ response ∈ responses, response.Manageable blocks) (blocksSynced : Nat)
    (hadvertised : w.mem.state.availableSyncServers[peer]? = some advertised)
    (hclock : w.mem.config.InTime now) (h : Sturdy cr blocks good w.tree) :
    Ends (fun fuel => syncLoop cr app fuel now peer initHeight responses blocksSynced)
      (fun _ w' => Sturdy cr blocks good w'.tree) w := by
  induction responses generalizing w blocksSynced with
  | nil =>
    refine ends_request_bind h hadmissible hclock fun w₁ hw₁ => ?_
    exact ends_endSync hw₁.1 (hw₁.2 ▸ hclock) (hw₁.2 ▸ hadvertised) hle blocksSynced
  | cons response responses ih =>
    obtain ⟨hblocks, hbounded⟩ := hresponses response List.mem_cons_self
    refine ends_request_bind h hadmissible hclock fun w₁ hw₁ => ?_
    refine .store_bind (.ite (fun _ => ?_) fun _ => ?_)
    · exact ends_endSync hw₁.1 (hw₁.2 ▸ hclock) (hw₁.2 ▸ hadvertised) hle blocksSynced
    · refine .bind ((ends_syncBlocks hadmissible husable hbounded happ (fun block hblock =>
        hblocks block ((List.dropWhile_suffix _).subset hblock)) _ hw₁.1).mono fun synced w₂ hw₂ => ?_)
      obtain ⟨accepted, blocksSynced'⟩ := synced
      have hsame : w₂.mem = w.mem := hw₂.2.trans hw₁.2
      cases accepted with
      | false => exact ends_blacklist hw₂.1 (hsame ▸ hclock) peer
      | true =>
        exact ih (fun response hresponse => hresponses response (List.mem_cons_of_mem _ hresponse))
          _ (hsame ▸ hadvertised) (hsame ▸ hclock) hw₂.1

section

variable (h : Sturdy cr blocks good w.tree) (husable : UsableSets apps good)
  (hadmissible : Admissible cr blocks)
include h husable hadmissible

/-- With enough fuel every sync ends, whichever server it is with and whatever that responds. -/
theorem ends_sync (hclock : w.mem.config.InTime now) (happ : apps app) {responses : List BlockSyncResponse}
    (hresponses : ∀ response ∈ responses, response.Manageable blocks) (choice : Nat) :
    Ends (fun fuel => sync cr app fuel now choice responses)
      (fun _ w' => Sturdy cr blocks good w'.tree) w := by
  have htail : ∀ {w' : World BlockSyncClient Action Var.Val}, Sturdy cr blocks good w'.tree →
      Ends (fun _ => do
        let client ← (mem : BlockSyncClient.Handler _)
        setMem { client with state := { client.state with lastProgressOrSyncTime := now } })
        (fun _ w' => Sturdy cr blocks good w'.tree) w' :=
    fun hw' => .of_run rfl hw'
  unfold sync
  refine .mem_bind (.store_bind (.ok_bind kv_highestCommittedBlockHeight ?_))
  dsimp only
  split
  · rename_i peer hpeer
    have hserver : peer ∈ w.mem.state.syncServers (committedHeight w.tree) :=
      List.mem_of_getElem? hpeer
    obtain ⟨advertised, hadvertised⟩ := Option.isSome_iff_exists.mp
      (Std.ExtTreeMap.mem_iff_isSome_getElem?.mp (BlockSyncClientState.mem_syncServers hserver))
    have hle := getD_le_of_mem_syncServers hserver hadvertised
    refine .bind ((Ends.store_bind (.ok_bind kv_highestCommittedBlockHeight ?_)).mono
      fun _ _ => htail)
    exact ends_syncLoop hadmissible husable happ hle hresponses 0 hadvertised hclock h
  · exact htail h

omit husable hadmissible in
theorem isSyncServerAddress_ok (vk : VerifyingKey) :
    ∃ isServer, Result.Eventually (fun fuel => isSyncServerAddress fuel w.tree vk) isServer := by
  obtain ⟨vs, hvs, -⟩ := h.governed.committed
  unfold isSyncServerAddress
  simp only [kv_committedValidatorSet_eq_ok.mpr hvs, kv_highestCommittedBlock, Result.ok_bind]
  cases vs.contains vk with
  | true => exact ⟨_, .const rfl⟩
  | false =>
    cases w.tree .highestCommittedBlock with
    | none => exact ⟨_, .const rfl⟩
    | some b =>
      obtain ⟨branch, hbranch⟩ := eventually_depthFirst h.wf [b]
      exact ⟨_, Result.Eventually.map _ hbranch⟩

/-- With enough fuel every advertisement is handled, whoever makes it. -/
theorem ends_onReceiveMsg (hclock : w.mem.config.InTime now) (happ : apps app) {responses : List BlockSyncResponse}
    (hresponses : ∀ response ∈ responses, response.Manageable blocks)
    {msg : BlockSyncAdvertiseMessage}
    (hmsg : ∀ entered, w.tree .highestViewEntered = some entered → msg.Comparable entered)
    (origin : VerifyingKey) (choice : Nat) :
    Ends (fun fuel => onReceiveMsg cr app fuel now msg origin choice responses)
      (fun _ w' => Sturdy cr blocks good w'.tree) w := by
  cases msg with
  | advertiseBlock msg =>
    obtain ⟨isServer, hserver⟩ := isSyncServerAddress_ok h origin
    refine .mem_bind (.store_bind (.ite (fun _ => .pure h) fun _ => .lift_bind hserver ?_))
    exact .ite (fun _ => .pure h) fun _ => .of_run rfl h
  | advertisePc msg =>
    obtain ⟨entered, hentered⟩ := Option.isSome_iff_exists.mp h.entered
    refine .mem_bind (.store_bind (.ok_bind (kv_highestViewEntered_eq_ok.mpr hentered)
      (.ite (fun _ => .pure h) fun hcompares => ?_)))
    have hle : entered ≤ msg.highestPc.view := not_lt.mp fun hlt => hcompares (.inr hlt)
    obtain ⟨difference, hdifference⟩ :=
      (ViewNumber.exists_difference_iff hle).mpr (hmsg entered hentered)
    refine .ok_bind hdifference (.ite (fun _ => ?_) fun _ => .pure h)
    obtain ⟨correct, hcorrect⟩ := h.governed.isCorrect husable.bounded cr msg.highestPc
    refine .ok_bind hcorrect (.ite (fun _ => ?_) fun _ => .pure h)
    exact ends_sync h husable hadmissible hclock happ hresponses choice

end

end BlockSyncClient

namespace Protocol

open BlockTree Lts

variable {config : Configuration} {log : List Event} {r : Replica} {fuel : Nat} {input : Input}
  {w : World Algorithm Action Var.Val}

end Protocol

/-! ## Two blocks from a server -/

namespace Sample

end Sample

namespace Protocol

open BlockTree

end Protocol
end HotStuffRs
