import HotStuffRs.Replica.Authentic

/-
Certificates of other chains.

The chain of a phase certificate is checked before it is acted upon, and that of the
certificate of an `AdvanceView` when the message is received.  The timeout certificate that
comes with a timeout vote is the one whose chain is not looked at.
-/

namespace HotStuffRs

open Kv Kv.Process

/-- The certificate is the Genesis PC or of the given chain. -/
def PhaseCertificate.OfChain (chainId : ChainID) (pc : PhaseCertificate) : Prop :=
  pc = .genesisPc ∨ pc.chainId = chainId

/-- All certificates kept are of the given chain. -/
structure OwnChain (chainId : ChainID) (s : BlockTree) : Prop where
  phase : ∀ pc, KeepsPc s pc → pc.OfChain chainId
  timeout : ∀ tc, s .highestTc = some tc → tc.chainId = chainId

/-- The certificate with which a message of the pacemaker can make another view current. -/
def PacemakerMessage.certificate? : PacemakerMessage → Option ProgressCertificate
  | timeoutVote vote => vote.highestTc.map .timeoutCertificate
  | advanceView m => some m.progressCertificate

variable {cr : Crypto} {config : Configuration} {apps : App → Prop} {s₀ s : BlockTree}
  {chainId : ChainID} {log : List Event}

namespace OwnChain

theorem congr {s' : BlockTree} (h : OwnChain chainId s)
    (hphase : ∀ pc, KeepsPc s' pc → KeepsPc s pc) (htimeout : s' .highestTc = s .highestTc) :
    OwnChain chainId s' :=
  ⟨fun pc hpc => h.phase pc (hphase pc hpc), fun tc htc => h.timeout tc (htimeout ▸ htc)⟩

theorem insert (h : OwnChain chainId s) {block : Block}
    {appStateUpdates : Option AppStateUpdates} {validatorSetUpdates : Option ValidatorSetUpdates}
    (hsafe : s.safeBlock block chainId = .ok true) :
    OwnChain chainId (s.insert block appStateUpdates validatorSetUpdates) where
  phase := by
    intro pc hpc
    rcases keepsPc_insert hpc with hold | rfl
    · exact h.phase pc hold
    · exact (BlockTree.safePc_cases (BlockTree.safePc_of_safeBlock hsafe).1).1.symm
  timeout := by
    intro tc htc
    have hkept : s.insert block appStateUpdates validatorSetUpdates .highestTc = s .highestTc :=
      BlockTree.insert_of_block?_eq_none rfl (by simp)
    exact h.timeout tc (hkept.symm.trans htc)

theorem update (h : OwnChain chainId s) {pc : PhaseCertificate} {fuel : Nat} {wb : WriteBatch}
    {updates : Option ValidatorSetUpdates} (hpc : pc.OfChain chainId)
    (hupdate : s.updateBatch fuel pc = .ok (wb, updates)) : OwnChain chainId (s.write wb) where
  phase := by
    intro pc' hpc'
    rcases keepsPc_update hupdate hpc' with hold | rfl
    · exact h.phase pc' hold
    · exact hpc
  timeout := by
    intro tc htc
    have hkept : s.write wb .highestTc = s .highestTc :=
      BlockTree.write_update_of_isProgress hupdate rfl (by simp) (by simp)
    exact h.timeout tc (hkept.symm.trans htc)

theorem setHighestTc (h : OwnChain chainId s) {tc : TimeoutCertificate}
    (htc : tc.chainId = chainId) : OwnChain chainId (s.write (WriteBatch.setHighestTc tc)) where
  phase pc hpc := h.phase pc (hpc.congr rfl rfl fun _ => rfl)
  timeout := by
    intro tc' htc'
    have hstored : s.write (WriteBatch.setHighestTc tc) .highestTc = some tc :=
      Store.apply_set s Var.highestTc tc
    obtain rfl : tc = tc' := Option.some.inj (hstored.symm.trans htc')
    exact htc

end OwnChain

/-! ## Runs -/

/-- The certificates kept, and those that the timeout votes collected may make, are of the
chain of the replica. -/
structure OwnChainPoint (cr : Crypto) (config : Configuration) (s₀ : BlockTree) (p : Point)
    (c : TimeoutVoteCollectors) : Prop where
  kept : OwnChain config.chainId (p.tree s₀)
  collected : c.Sound cr config.chainId fun _ => True

namespace OwnChainPoint

variable {p : Point} {c : TimeoutVoteCollectors}

theorem emit (h : OwnChainPoint cr config s₀ p c) {e : Replica.Effect}
    (hkept : OwnChain config.chainId (Store.perform (p.tree s₀) e)) :
    OwnChainPoint cr config s₀ (p.emit e) c := by
  rw [← Point.tree_emit] at hkept
  exact ⟨hkept, h.collected⟩

theorem tell (h : OwnChainPoint cr config s₀ p c) (updates : Option ValidatorSetUpdates) :
    OwnChainPoint cr config s₀ (p.tell updates) c :=
  ⟨by rw [Point.tree_tell]; exact h.kept, h.collected⟩

theorem update (h : OwnChainPoint cr config s₀ p c) {pc : PhaseCertificate} {fuel : Nat}
    {wb : WriteBatch} {updates : Option ValidatorSetUpdates}
    (hsafe : (p.tree s₀).safePc pc config.chainId = .ok true)
    (hupdate : (p.tree s₀).updateBatch fuel pc = .ok (wb, updates)) :
    OwnChainPoint cr config s₀ (p.emit (.write wb)) c :=
  h.emit (h.kept.update (BlockTree.safePc_cases hsafe).1.symm hupdate)

theorem insert (h : OwnChainPoint cr config s₀ p c) {block : Block}
    {appStateUpdates : Option AppStateUpdates} {validatorSetUpdates : Option ValidatorSetUpdates}
    (hsafe : (p.tree s₀).safeBlock block config.chainId = .ok true) :
    OwnChainPoint cr config s₀
      (p.emit (.write ((p.tree s₀).insertBatch block appStateUpdates validatorSetUpdates))) c :=
  h.emit (OwnChain.insert h.kept hsafe)

theorem updateInserted (h : OwnChainPoint cr config s₀ p c) {block : Block}
    {appStateUpdates : Option AppStateUpdates} {validatorSetUpdates : Option ValidatorSetUpdates}
    {fuel : Nat} {wb : WriteBatch} {updates : Option ValidatorSetUpdates}
    (hsafe : (p.tree s₀).safeBlock block config.chainId = .ok true)
    (hupdate : ((p.tree s₀).insert block appStateUpdates validatorSetUpdates).updateBatch fuel
      block.justify = .ok (wb, updates)) :
    OwnChainPoint cr config s₀ ((p.emit (.write ((p.tree s₀).insertBatch block appStateUpdates
      validatorSetUpdates))).emit (.write wb)) c := by
  have hjustify : block.justify.OfChain config.chainId :=
    (BlockTree.safePc_cases (BlockTree.safePc_of_safeBlock hsafe).1).1.symm
  refine (h.insert hsafe).emit ?_
  rw [Point.tree_emit]
  exact (h.kept.insert hsafe).update hjustify hupdate

theorem new (hkept : OwnChain config.chainId (p.tree s₀)) (v : ViewNumber)
    (vss : ValidatorSetState) : OwnChainPoint cr config s₀ p (.new config.chainId v vss) :=
  ⟨hkept, ActiveCollectorPair.sound_new v trivial trivial⟩

end OwnChainPoint

/-- That certificates are of the replica's chain is kept by every move, as long as no timeout
vote makes it fall back on one of another chain. -/
def ownChain (cr : Crypto) (config : Configuration) (apps : App → Prop) (s₀ : BlockTree)
    (hs₀ : OwnChain config.chainId s₀) : RunInvariant cr config apps s₀ where
  Open := OwnChainPoint cr config s₀
  Halt p := OwnChain config.chainId (p.tree s₀)
  Quiet _ := True
  Admits tc := tc.chainId = config.chainId
  start _ := OwnChainPoint.new hs₀ _ _
  next h _ := ⟨by rw [Point.tree_next]; exact h.kept, h.collected⟩
  halt h := h.kept
  crash h _ _ := OwnChainPoint.new (by rw [Point.tree_crash]; exact h) _ _
  act h _ := h.emit h.kept
  enterView h := h.emit (h.kept.congr (fun _ hpc => hpc.congr rfl rfl fun _ => rfl) rfl)
  record h := h.emit (h.kept.congr (fun _ hpc => hpc.congr rfl rfl fun _ => rfl) rfl)
  insert h _ hsafe _ _ := (h.insert hsafe).kept
  updateInserted h _ hsafe _ _ hupdate :=
    ⟨(h.updateInserted hsafe hupdate).kept, (h.updateInserted hsafe hupdate).tell _⟩
  accept h _ hsafe hupdate := ⟨(h.update hsafe hupdate).kept, (h.update hsafe hupdate).tell _⟩
  synced h _ _ hsafe hupdate := h.update hsafe hupdate
  follow h _ := ⟨h.kept, h.collected.updateValidatorSets trivial trivial⟩
  newView h _ := OwnChainPoint.new h.kept _ _
  collect h hcorrect hcollect := by
    obtain ⟨hcollected, hsigned⟩ := h.collected.collect (fun _ => hcorrect) hcollect
    refine ⟨⟨h.kept, hcollected⟩, ?_⟩
    intro tc htc
    obtain ⟨vs, -, view, t, signatures, rfl, -⟩ := hsigned tc htc
    exact OwnChainPoint.emit ⟨h.kept, hcollected⟩ (h.kept.setHighestTc rfl)
  receiveTc h _ hchain := h.emit (h.kept.setHighestTc (hchain.elim id id))

theorem ownChain_initial {appState : AppStateUpdates} {vss : ValidatorSetState} :
    OwnChain chainId (BlockTree.initial appState vss) where
  phase _ hpc := .inl (keepsPc_initial hpc)
  timeout := by
    intro tc htc
    rw [BlockTree.initial_highestTc] at htc
    cases htc

/-! ## What makes the pacemaker change its view -/

namespace RunInvariant
namespace Pacemaker

variable {v : ViewNumber} {now : Instant} {w : World Pacemaker Action Var.Val}

theorem keepsView_advance (certificate : ProgressCertificate) :
    Keeps (fun w => w.mem.viewInfo.view = v) (fun _ => True)
      (Pacemaker.advance certificate) :=
  .bind (.act fun _ h => h) fun _ => .bind_mem fun _ h => .setMem fun _ _ => h

theorem keepsView_onCollectTc {vss : ValidatorSetState} {newTc : TimeoutCertificate} :
    Keeps (fun w => w.mem.viewInfo.view = v) (fun _ => True)
      (Pacemaker.onCollectTc vss newTc) := by
  refine .bind .mem fun pm => .bind .store fun tree =>
    .bind (.lift (fun _ _ => trivial) _) fun isHigher => .ite (.bind ?_ fun _ => ?_) (.pure _)
  · exact fun _ h => h
  · exact .ite (keepsView_advance _) (.pure _)

/-- A timeout vote changes the view only by the certificate that comes with it. -/
theorem view_onReceiveTimeoutVote {timeoutVote : TimeoutVote} {origin : VerifyingKey} :
    wp (Pacemaker.onReceiveTimeoutVote cr now timeoutVote origin)
      (fun _ w' => w'.mem.viewInfo.view = w.mem.viewInfo.view ∨
        ∃ tc, FallsBack cr w.mem w.tree timeoutVote origin tc) (fun _ => True) w := by
  unfold Pacemaker.onReceiveTimeoutVote
  simp only [wp_bind, wp_mem, wp_store, wp_lift]
  refine ⟨fun vss hvss => ?_, fun _ _ => trivial⟩
  rw [wp_ite]
  split
  · rename_i haccepted
    obtain ⟨hvalidator, hcorrect⟩ := haccepted
    simp only [wp_bind, wp_lift]
    refine ⟨fun isEpochChange hepoch => ?_, fun _ _ => trivial⟩
    rw [wp_ite]
    split
    · rename_i htrue
      subst htrue
      simp only [wp_bind, wp_lift, wp_setMem]
      refine ⟨fun fallbackTc hfallback => ⟨fun collected hcollect => ?_, fun _ _ => trivial⟩,
        fun _ _ => trivial⟩
      obtain ⟨newTc, collectors⟩ := collected
      cases newTc with
      | some newTc =>
        refine wp_mono (keepsView_onCollectTc _ ?_) (fun _ w' h => .inl h) fun _ => id
        rfl
      | none =>
        cases fallbackTc with
        | none => exact .inl rfl
        | some tc =>
          dsimp only
          unfold Pacemaker.onFallbackTc
          simp only [wp_bind, wp_store, wp_lift, wp_ite, wp_write]
          refine ⟨fun isHigher hhigher => ?_, fun _ _ => trivial⟩
          split
          · rename_i htrue
            subst htrue
            have hfalls : FallsBack cr w.mem w.tree timeoutVote origin tc :=
              ⟨vss, collectors, hvss, hvalidator, hcorrect, hepoch, hfallback, hcollect, hhigher⟩
            refine ⟨fun nextView _ => ?_, fun _ _ => trivial⟩
            exact wp_mono (wp_true _ _) (fun _ _ _ => .inr ⟨tc, hfalls⟩) fun _ => id
          · exact .inl rfl
    · exact .inl rfl
  · exact .inl rfl

end Pacemaker
end RunInvariant

/-- Handling a message changes the view of the pacemaker only by a certificate of the message,
which is of the replica's chain unless it came with a timeout vote that made the replica fall
back on it. -/
theorem view_receive {fuel : Nat} {input : Input} {w : World Algorithm Action Var.Val}
    (hchain : w.mem.chainId = chainId) :
    wp (Algorithm.receive cr fuel input)
      (fun _ w' => w'.mem.pacemaker.viewInfo.view = w.mem.pacemaker.viewInfo.view ∨
        ∃ origin msg certificate, input.message = some (origin, .pacemaker msg) ∧
          msg.certificate? = some certificate ∧ (certificate.chainId = chainId ∨
            ∃ vote tc, msg = .timeoutVote vote ∧ certificate = .timeoutCertificate tc ∧
              (ProgressMessage.pacemaker msg).receivable w.mem.chainId
                w.mem.pacemaker.viewInfo.view = true ∧
              RunInvariant.Pacemaker.FallsBack cr w.mem.pacemaker w.tree vote origin tc))
      (fun _ => True) w := by
  rw [Algorithm.receive, wp_bind, wp_mem]
  cases hmessage : input.message with
  | none => exact .inl rfl
  | some message =>
    obtain ⟨origin, msg⟩ := message
    dsimp only
    rw [wp_ite]
    split
    · rename_i hreceivable
      cases msg with
      | hotStuff msg =>
        dsimp only
        rw [Algorithm.onHotStuff, wp_zoom]
        exact wp_mono (wp_true _ _) (fun _ _ _ => .inl rfl) fun _ => id
      | blockSyncAdvertise msg =>
        dsimp only
        rw [Algorithm.onBlockSyncClient, wp_zoom]
        exact wp_mono (wp_true _ _) (fun _ _ _ => .inl rfl) fun _ => id
      | pacemaker msg =>
        dsimp only
        rw [Algorithm.onPacemaker, wp_zoom]
        cases msg with
        | timeoutVote vote =>
          refine wp_mono RunInvariant.Pacemaker.view_onReceiveTimeoutVote (fun _ w' h => ?_)
            fun _ => id
          rcases h with hview | ⟨tc, hfalls⟩
          · exact .inl hview
          · obtain ⟨_, _, _, _, _, _, hfallback, _⟩ := id hfalls
            have htc := (RunInvariant.Pacemaker.isCorrect_of_fallbackTc hfallback).1
            refine .inr ⟨origin, .timeoutVote vote, .timeoutCertificate tc, rfl, ?_, .inr ?_⟩
            · rw [PacemakerMessage.certificate?, htc]
              rfl
            · exact ⟨vote, tc, rfl, rfl, hreceivable, hfalls⟩
        | advanceView advanceView =>
          refine wp_mono (wp_true _ _) (fun _ w' _ => ?_) fun _ => id
          refine .inr ⟨origin, .advanceView advanceView, _, rfl, rfl, .inl ?_⟩
          simp only [ProgressMessage.receivable, PacemakerMessage.chainId, Bool.and_eq_true,
            beq_iff_eq] at hreceivable
          exact hreceivable.1.trans hchain
    · exact .inl rfl

/-- No timeout vote makes the replica fall back on a timeout certificate of another chain. -/
def FallsBackOnOwnChain (cr : Crypto) (config : Configuration) : Condition :=
  fun r fuel input _ => FallsBackOnly cr (fun tc => tc.chainId = config.chainId) r fuel input

/-- In every run in which no timeout vote makes the replica fall back on a timeout
certificate of another chain, all certificates kept at any point, and all those that make the
pacemaker change its view, are of the replica's chain, the Genesis PC excepted. -/
theorem other_chains_have_no_effect (cr : Crypto) (config : Configuration) (apps : App → Prop)
    (appState : AppStateUpdates) (vss : ValidatorSetState) :
    (∀ log, HistoryUnder cr config apps (BlockTree.initial appState vss)
        (FallsBackOnOwnChain cr config) log →
      OwnChain config.chainId ((BlockTree.initial appState vss).replay log)) ∧
    ∀ log r fuel input effects w w',
      RunUnder cr config apps (BlockTree.initial appState vss) (FallsBackOnOwnChain cr config)
        log r →
      FallsBackOnOwnChain cr config r fuel input effects →
      Algorithm.beforeReceive cr fuel input r.world = .ok () w →
      Algorithm.receive cr fuel input w = .ok () w' →
      w'.mem.pacemaker.viewInfo.view ≠ w.mem.pacemaker.viewInfo.view →
      ∃ origin msg certificate, input.message = some (origin, .pacemaker msg) ∧
        msg.certificate? = some certificate ∧ certificate.chainId = config.chainId := by
  let I := ownChain cr config apps (BlockTree.initial appState vss) ownChain_initial
  have hsuffices : I.Suffices (FallsBackOnOwnChain cr config) :=
    fun _ _ _ _ _ _ hC => ⟨trivial, hC⟩
  constructor
  · intro log h
    obtain ⟨p, rfl, hhalt⟩ := RunInvariant.halt_of_history hsuffices h
    rw [← Point.tree_eq]
    exact hhalt
  · intro log r fuel input effects w w' run hC hbefore hreceive hchange
    obtain ⟨hconfigured, htree, hopen⟩ := RunInvariant.isOpen_of_run hsuffices run
    have hready : I.Ready log w := wp_ok (RunInvariant.keeps_beforeReceive _
      (RunInvariant.ready_world hconfigured htree hopen)) hbefore
    rcases wp_ok (view_receive hready.1.chainId) hreceive with
      hsame | ⟨origin, msg, certificate, hmessage, hcertificate, hchain | ⟨vote, tc, rfl, rfl,
        hreceivable, hfalls⟩⟩
    · exact absurd hsame hchange
    · exact ⟨origin, msg, certificate, hmessage, hcertificate, hchain⟩
    · exact ⟨origin, _, _, hmessage, hcertificate,
        hC w hbefore origin vote tc hmessage hreceivable hfalls⟩

/-! ## A timeout certificate of another chain -/

namespace Sample

/-- The timeout certificate that the same validators make for chain 8. -/
def foreignTimeout : TimeoutCertificate :=
  ⟨8, 0, [none, some (crypto.sign leader (timeoutVoteBytes 8 0))]⟩

/-- Nothing happens. -/
def idle : Input where
  now := 0
  app
  message := none
  messageResponses := []
  tickResponses := []
  choice := 0

/-- A timeout vote for chain 7 that comes with that certificate. -/
def foreignVote : Input :=
  input 1 (.pacemaker (.timeoutVote ⟨7, 0, crypto.sign 1 (timeoutVoteBytes 7 0),
    some foreignTimeout⟩)) (3 * 10 ^ 9)

end Sample

set_option maxRecDepth 100000 in
theorem reaches_foreignTimeout : Replica.reaches Sample.crypto (Sample.configuration 3)
    Sample.tree 20 [Sample.foreignVote] (fun s => s .highestTc == some Sample.foreignTimeout) =
      true := by
  decide +kernel

theorem other_chain_has_effect : ¬∀ (cr : Crypto) (config : Configuration) (apps : App → Prop)
    (appState : AppStateUpdates) (vss : ValidatorSetState) (log : List Event),
    History cr config apps (BlockTree.initial appState vss) log →
    OwnChain config.chainId ((BlockTree.initial appState vss).replay log) := by
  intro h
  have happs : ∀ input ∈ [Sample.foreignVote], input.app = Sample.app := by
    simp [Sample.foreignVote, Sample.input]
  obtain ⟨log, hlog, hforeign⟩ :=
    @exists_history_of_reaches _ _ (· = Sample.app) _ _ _ _ _ rfl happs reaches_foreignTimeout
  have hstored : Sample.tree.replay log .highestTc = some Sample.foreignTimeout := by
    simpa using hforeign
  exact absurd ((h _ _ _ _ _ log hlog).timeout Sample.foreignTimeout hstored) (by decide)

/-- Whether the first input of the first three views makes another view current. -/
def changesView : Bool :=
  match Replica.start (Sample.configuration 3) Sample.tree 0 with
  | .ok r =>
    match Algorithm.beforeReceive Sample.crypto 20 (Sample.advance (.timeoutCertificate
        Sample.timeout)) r.world with
    | .ok _ w =>
      match Algorithm.receive Sample.crypto 20 (Sample.advance (.timeoutCertificate
          Sample.timeout)) w with
      | .ok _ w' => w'.mem.pacemaker.viewInfo.view != w.mem.pacemaker.viewInfo.view
      | .error _ _ => false
    | .error _ _ => false
  | .error _ => false

set_option maxRecDepth 100000 in
theorem changesView_eq : changesView = true := by
  decide +kernel

/-- An input without a timeout vote makes the replica fall back on nothing. -/
theorem fallsBackOnly_of_message {admits : TimeoutCertificate → Prop} {r : Replica} {fuel : Nat}
    {input : Input}
    (h : ∀ origin vote, input.message ≠ some (origin, .pacemaker (.timeoutVote vote))) :
    FallsBackOnly cr admits r fuel input :=
  fun _ _ origin vote _ hmessage => absurd hmessage (h origin vote)

theorem fallsBackOnOwnChain_firstThreeViews : ∀ input ∈ Sample.firstThreeViews,
    input.app = Sample.app ∧ ∀ r fuel effects,
      FallsBackOnOwnChain Sample.crypto (Sample.configuration 3) r fuel input effects := by
  intro input hinput
  simp only [Sample.firstThreeViews, List.mem_cons, List.not_mem_nil, or_false] at hinput
  rcases hinput with rfl | rfl | rfl | rfl | rfl | rfl <;>
    exact ⟨rfl, fun _ _ _ => fallsBackOnly_of_message fun _ _ h => by
      simp [Sample.advance, Sample.propose, Sample.input] at h⟩

theorem other_chains_have_no_effect_after_three_views :
    (∃ log, keepsCertificates (Sample.tree.replay log) = true ∧
      OwnChain 7 (Sample.tree.replay log)) ∧
    ∃ (r : Replica) (w w' : _), Algorithm.beforeReceive Sample.crypto 20
        (Sample.advance (.timeoutCertificate Sample.timeout)) r.world = .ok () w ∧
      Algorithm.receive Sample.crypto 20
        (Sample.advance (.timeoutCertificate Sample.timeout)) w = .ok () w' ∧
      w'.mem.pacemaker.viewInfo.view ≠ w.mem.pacemaker.viewInfo.view ∧
      ∃ origin msg certificate, (Sample.advance (.timeoutCertificate Sample.timeout)).message =
          some (origin, .pacemaker msg) ∧
        msg.certificate? = some certificate ∧ certificate.chainId = 7 := by
  obtain ⟨hkept, hview⟩ := other_chains_have_no_effect Sample.crypto (Sample.configuration 3)
    (· = Sample.app) UpdateSet.new ⟨Sample.validators, Sample.validators, none, true⟩
  constructor
  · obtain ⟨log, r, run, hkeeps⟩ := @exists_runUnder_of_reaches _ _ (· = Sample.app) _
      (FallsBackOnOwnChain Sample.crypto (Sample.configuration 3)) _ _ _
      fallsBackOnOwnChain_firstThreeViews reaches_keepsCertificates
    have htree : r.tree = Sample.tree.replay log := run.tree_eq
    have hquiet : FallsBackOnOwnChain Sample.crypto (Sample.configuration 3) r 0 Sample.idle [] :=
      fallsBackOnly_of_message fun _ _ h => nomatch h
    rw [htree] at hkeeps
    exact ⟨log, hkeeps, hkept log ⟨log, r, 0, Sample.idle, [], run, rfl, List.nil_prefix, hquiet, by simp⟩⟩
  · have h := changesView_eq
    unfold changesView at h
    split at h
    · rename_i r hstart
      split at h
      · rename_i w hbefore
        split at h
        · rename_i w' hreceive
          have hchange : w'.mem.pacemaker.viewInfo.view ≠ w.mem.pacemaker.viewInfo.view := by
            simpa using h
          have hC := (fallsBackOnOwnChain_firstThreeViews _ List.mem_cons_self).2
          exact ⟨r, w, w', hbefore, hreceive, hchange,
            hview [] r 20 _ [] w w' (.start hstart) (hC r 20 []) hbefore hreceive hchange⟩
        · cases h
      · cases h
    · cases h

end HotStuffRs
