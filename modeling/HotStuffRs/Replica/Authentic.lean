import HotStuffRs.HotStuff.Sound
import HotStuffRs.Replica.Under

/-
Every certificate that a replica keeps was signed by a quorum of a validator set that the
replica held before.
-/

namespace HotStuffRs

open Kv

/-! ## Validator sets and certificates of a run -/

section

variable (cr : Crypto) (s₀ : BlockTree) (log : List Event)

/-- The committed or the previous validator set at some point of `log`. -/
def Held (vs : ValidatorSet) : Prop :=
  ∃ before, before <+: log ∧ ((s₀.replay before) .committedValidatorSet = some vs ∨
    (s₀.replay before) .previousValidatorSet = some vs)

/-- A validator set held at some point of `log`, or the committed one with the updates
applied that `block` had pending at that point. -/
def HeldFor (block : CryptoHash) (vs : ValidatorSet) : Prop :=
  Held s₀ log vs ∨ ∃ before committed updates, before <+: log ∧
    (s₀.replay before) .committedValidatorSet = some committed ∧
    (s₀.replay before) (.validatorSetUpdatesStatus block) = some (.pending updates) ∧
    vs = committed.applyUpdates updates

def PhaseCertificate.Authentic (pc : PhaseCertificate) : Prop :=
  pc = .genesisPc ∨ ∃ vs, HeldFor s₀ log pc.block vs ∧ pc.isCorrectlySigned cr vs = .ok true

def TimeoutCertificate.Authentic (tc : TimeoutCertificate) : Prop :=
  ∃ vs, Held s₀ log vs ∧ tc.isCorrectlySigned cr vs = .ok true

/-- At some point before the last event of `log`. -/
def Before (P : List Event → Prop) : Prop := ∃ before e, before ++ [e] <+: log ∧ P before

end

/-- The places of a block tree that keep phase certificates. -/
inductive KeepsPc (s : BlockTree) (pc : PhaseCertificate) : Prop
  | highestPc (h : s .highestPc = some pc)
  | lockedPc (h : s .lockedPc = some pc)
  | justify (block : CryptoHash) (h : s (.blockJustify block) = some pc)

/-- Whatever is kept after `log` was authentic before it was kept. -/
structure AllAuthentic (cr : Crypto) (s₀ : BlockTree) (log : List Event) : Prop where
  phase : ∀ pc, KeepsPc (s₀.replay log) pc →
    pc = .genesisPc ∨ Before log fun before => pc.Authentic cr s₀ before
  timeout : ∀ tc, s₀.replay log .highestTc = some tc →
    Before log fun before => tc.Authentic cr s₀ before

variable {cr : Crypto} {config : Configuration} {apps : App → Prop} {s₀ s : BlockTree}
  {log log' : List Event} {e : Event} {vs : ValidatorSet}

theorem Held.mono (h : Held s₀ log vs) (hlog : log <+: log') : Held s₀ log' vs := by
  obtain ⟨before, hbefore, hheld⟩ := h
  exact ⟨before, hbefore.trans hlog, hheld⟩

theorem Before.mono {P : List Event → Prop} (h : Before log P) (hlog : log <+: log') :
    Before log' P := by
  obtain ⟨before, e, hbefore, hP⟩ := h
  exact ⟨before, e, hbefore.trans hlog, hP⟩

theorem before_snoc {P : List Event → Prop} (h : P log) : Before (log ++ [e]) P :=
  ⟨log, e, List.prefix_rfl, h⟩

/-- The validator sets of the current state are held. -/
theorem held_validatorSetState {vss : ValidatorSetState}
    (h : (s₀.replay log).kv.validatorSetState = .ok vss) :
    Held s₀ log vss.committedValidatorSet ∧ Held s₀ log vss.previousValidatorSet := by
  obtain ⟨hcommitted, hprevious, -⟩ := kv_validatorSetState_eq_ok.mp h
  exact ⟨⟨log, List.prefix_rfl, .inl hcommitted⟩, ⟨log, List.prefix_rfl, .inr hprevious⟩⟩

/-! ## Correct certificates are authentic -/

/-- The validator sets that `is_correct` looks at. -/
theorem signingSet_cases {pc : PhaseCertificate} (h : pc.signingSet s = .ok (some vs)) :
    s .committedValidatorSet = some vs ∨ s .previousValidatorSet = some vs ∨
      ∃ committed updates, s .committedValidatorSet = some committed ∧
        s (.validatorSetUpdatesStatus pc.block) = some (.pending updates) ∧
        vs = committed.applyUpdates updates := by
  simp only [PhaseCertificate.signingSet, kv_blockHeight, Result.ok_bind, Result.bind_eq_ok] at h
  obtain ⟨vss, hvss, h⟩ := h
  obtain ⟨hcommitted, hprevious, -, -⟩ := kv_validatorSetState_eq_ok.mp hvss
  cases hheight : s (.blockHeight pc.block) with
  | none =>
    simp only [hheight, Result.pure_eq, Except.ok.injEq, Option.some.injEq] at h
    exact .inl (h ▸ hcommitted)
  | some height =>
    cases hupdate : vss.updateHeight with
    | none =>
      simp only [hheight, hupdate, Result.pure_eq, Except.ok.injEq, Option.some.injEq] at h
      exact .inl (h ▸ hcommitted)
    | some updateHeight =>
      simp only [hheight, hupdate] at h
      by_cases hlt : height < updateHeight
      · simp only [if_pos hlt, Result.pure_eq, Except.ok.injEq, Option.some.injEq] at h
        exact .inr (.inl (h ▸ hprevious))
      · by_cases hgt : height > updateHeight
        · simp only [if_neg hlt, if_pos hgt, Result.pure_eq, Except.ok.injEq,
            Option.some.injEq] at h
          exact .inl (h ▸ hcommitted)
        · simp only [if_neg hlt, if_neg hgt] at h
          -- The certified block is the one with the latest update.
          cases hphase : pc.phase with
          | generic => simp [hphase] at h
          | decide =>
            simp only [hphase, Result.bind_eq_ok] at h
            obtain ⟨status, hstatus, h⟩ := h
            cases status with
            | none => simp at h
            | committed =>
              simp only [Result.pure_eq, Except.ok.injEq, Option.some.injEq] at h
              exact .inl (h ▸ hcommitted)
            | pending updates =>
              simp only [Result.bind_eq_ok, kv_committedValidatorSet_eq_ok, Result.pure_eq,
                Except.ok.injEq, Option.some.injEq] at h
              obtain ⟨committed, hcommitted', rfl⟩ := h
              exact .inr (.inr ⟨committed, updates, hcommitted',
                BlockTree.pending_iff.mp hstatus, rfl⟩)
          | prepare | precommit | commit =>
            simp only [hphase, Result.bind_eq_ok] at h
            obtain ⟨status, hstatus, h⟩ := h
            cases status with
            | none => simp at h
            | committed =>
              simp only [Result.pure_eq, Except.ok.injEq, Option.some.injEq] at h
              exact .inr (.inl (h ▸ hprevious))
            | pending updates =>
              simp only [Result.pure_eq, Except.ok.injEq, Option.some.injEq] at h
              exact .inl (h ▸ hcommitted)

theorem authentic_of_isCorrect {pc : PhaseCertificate}
    (h : pc.isCorrect cr (s₀.replay log) = .ok true) : pc.Authentic cr s₀ log := by
  by_cases hgenesis : pc = .genesisPc
  · exact .inl hgenesis
  · have hnot : pc.isGenesisPc = false := by simpa [PhaseCertificate.isGenesisPc] using hgenesis
    simp only [PhaseCertificate.isCorrect, hnot, Bool.false_eq_true, if_false,
      Result.bind_eq_ok] at h
    obtain ⟨vs, hvs, h⟩ := h
    cases vs with
    | none => simp at h
    | some vs =>
      refine .inr ⟨vs, ?_, h⟩
      rcases signingSet_cases hvs with hheld | hheld | ⟨committed, updates, hcommitted, hpending, hvs⟩
      · exact .inl ⟨log, List.prefix_rfl, .inl hheld⟩
      · exact .inl ⟨log, List.prefix_rfl, .inr hheld⟩
      · exact .inr ⟨log, committed, updates, List.prefix_rfl, hcommitted, hpending, hvs⟩

theorem authentic_of_isCorrect_tc {tc : TimeoutCertificate}
    (h : tc.isCorrect cr (s₀.replay log) = .ok true) : tc.Authentic cr s₀ log := by
  obtain ⟨vss, hvss, h⟩ := Result.bind_eq_ok.mp h
  obtain ⟨hcommitted, hprevious⟩ := held_validatorSetState hvss
  split at h
  · exact ⟨_, hcommitted, h⟩
  · obtain ⟨signed, hsigned, h⟩ := Result.bind_eq_ok.mp h
    cases signed with
    | true => exact ⟨_, hcommitted, hsigned⟩
    | false => exact ⟨_, hprevious, h⟩

/-- The justify of a correct block is correct. -/
theorem justify_isCorrect {block : Block} (h : block.isCorrect cr s = .ok true) :
    block.justify.isCorrect cr s = .ok true := by
  obtain ⟨hash, -, h⟩ := Result.bind_eq_ok.mp h
  split at h
  · exact h
  · cases h

/-! ## What each write keeps -/

/-- Inserting a block keeps its justify beside what was kept before. -/
theorem keepsPc_insert {block : Block} {appStateUpdates : Option AppStateUpdates}
    {validatorSetUpdates : Option ValidatorSetUpdates} {pc : PhaseCertificate}
    (h : KeepsPc (s.insert block appStateUpdates validatorSetUpdates) pc) :
    KeepsPc s pc ∨ pc = block.justify := by
  cases h with
  | highestPc h =>
    rw [BlockTree.insert_of_block?_eq_none (v := .highestPc) rfl (by simp)] at h
    exact .inl (.highestPc h)
  | lockedPc h =>
    rw [BlockTree.insert_of_block?_eq_none (v := .lockedPc) rfl (by simp)] at h
    exact .inl (.lockedPc h)
  | justify b h =>
    by_cases hb : b = block.hash
    · rw [hb, BlockTree.justify_insert] at h
      exact .inr (Option.some.inj h).symm
    · rw [BlockTree.field_insert_of_ne rfl rfl hb] at h
      exact .inl (.justify b h)

/-- Acting upon a certificate keeps it, or what was kept before. -/
theorem keepsPc_update {justify : PhaseCertificate} {fuel : Nat} {wb : WriteBatch}
    {updates : Option ValidatorSetUpdates} (hupdate : s.updateBatch fuel justify = .ok (wb, updates))
    {pc : PhaseCertificate} (h : KeepsPc (s.write wb) pc) : KeepsPc s pc ∨ pc = justify := by
  cases h with
  | highestPc h =>
    obtain ⟨highest, hhighest, hnew⟩ := BlockTree.highestPc_update hupdate
    rw [h, Option.some.injEq] at hnew
    split at hnew
    · exact .inr hnew
    · exact .inl (.highestPc (hnew ▸ hhighest))
  | lockedPc h =>
    rcases BlockTree.cases_of_lockedPc_update hupdate h with hlocked | hjustify | hparent
    · exact .inl (.lockedPc hlocked)
    · exact .inr hjustify
    · exact .inl (.justify _ hparent)
  | justify b h =>
    rcases BlockTree.field_write_update hupdate (v := .blockJustify b) rfl with heq | heq
    · rw [heq] at h
      exact .inl (.justify b h)
    · cases heq.symm.trans h

theorem KeepsPc.congr {s' : BlockTree} {pc : PhaseCertificate} (h : KeepsPc s' pc)
    (hhighest : s' .highestPc = s .highestPc) (hlocked : s' .lockedPc = s .lockedPc)
    (hjustify : ∀ b, s' (.blockJustify b) = s (.blockJustify b)) : KeepsPc s pc := by
  cases h with
  | highestPc h => exact .highestPc (hhighest ▸ h)
  | lockedPc h => exact .lockedPc (hlocked ▸ h)
  | justify b h => exact .justify b (hjustify b ▸ h)

theorem HeldFor.mono {block : CryptoHash} (h : HeldFor s₀ log block vs) (hlog : log <+: log') :
    HeldFor s₀ log' block vs := by
  rcases h with hheld | ⟨before, committed, updates, hbefore, hrest⟩
  · exact .inl (hheld.mono hlog)
  · exact .inr ⟨before, committed, updates, hbefore.trans hlog, hrest⟩

theorem PhaseCertificate.Authentic.mono {pc : PhaseCertificate} (h : pc.Authentic cr s₀ log)
    (hlog : log <+: log') : pc.Authentic cr s₀ log' :=
  h.imp_right fun ⟨vs, hheld, hsigned⟩ => ⟨vs, hheld.mono hlog, hsigned⟩

namespace AllAuthentic

/-- An event after which only authentic certificates are kept anew. -/
theorem snoc (h : AllAuthentic cr s₀ log)
    (hphase : ∀ pc, KeepsPc ((s₀.replay log).perform e) pc →
      KeepsPc (s₀.replay log) pc ∨ pc.Authentic cr s₀ log)
    (htimeout : ∀ tc, (s₀.replay log).perform e .highestTc = some tc →
      s₀.replay log .highestTc = some tc ∨ tc.Authentic cr s₀ log) :
    AllAuthentic cr s₀ (log ++ [e]) where
  phase := by
    intro pc hpc
    rw [BlockTree.replay_snoc] at hpc
    rcases hphase pc hpc with hold | hnew
    · exact (h.phase pc hold).imp_right fun hbefore => hbefore.mono (List.prefix_append _ _)
    · exact .inr (before_snoc hnew)
  timeout := by
    intro tc htc
    rw [BlockTree.replay_snoc] at htc
    rcases htimeout tc htc with hold | hnew
    · exact (h.timeout tc hold).mono (List.prefix_append _ _)
    · exact before_snoc hnew

/-- An event that leaves all certificates as they are. -/
theorem keep (h : AllAuthentic cr s₀ log)
    (hhighest : (s₀.replay log).perform e .highestPc = s₀.replay log .highestPc)
    (hlocked : (s₀.replay log).perform e .lockedPc = s₀.replay log .lockedPc)
    (hjustify : ∀ b, (s₀.replay log).perform e (.blockJustify b) =
      s₀.replay log (.blockJustify b))
    (htimeout : (s₀.replay log).perform e .highestTc = s₀.replay log .highestTc) :
    AllAuthentic cr s₀ (log ++ [e]) :=
  h.snoc (fun _ hpc => .inl (hpc.congr hhighest hlocked hjustify))
    fun _ htc => .inl (htimeout ▸ htc)

theorem act (h : AllAuthentic cr s₀ log) (a : Action) :
    AllAuthentic cr s₀ (log ++ [.effect (.act a)]) :=
  h.keep rfl rfl (fun _ => rfl) rfl

theorem insert (h : AllAuthentic cr s₀ log) {block : Block}
    {appStateUpdates : Option AppStateUpdates} {validatorSetUpdates : Option ValidatorSetUpdates}
    (hcorrect : block.isCorrect cr (s₀.replay log) = .ok true) :
    AllAuthentic cr s₀ (log ++ [.effect (.write
      ((s₀.replay log).insertBatch block appStateUpdates validatorSetUpdates))]) := by
  refine h.snoc (fun pc hpc => ?_) fun tc htc => .inl ?_
  · rcases keepsPc_insert hpc with hold | rfl
    · exact .inl hold
    · exact .inr (authentic_of_isCorrect (justify_isCorrect hcorrect))
  · have hkept : (s₀.replay log).insert block appStateUpdates validatorSetUpdates .highestTc =
        s₀.replay log .highestTc := BlockTree.insert_of_block?_eq_none rfl (by simp)
    exact hkept.symm.trans htc

theorem update (h : AllAuthentic cr s₀ log) {pc : PhaseCertificate} {fuel : Nat} {wb : WriteBatch}
    {updates : Option ValidatorSetUpdates} (hauthentic : pc.Authentic cr s₀ log)
    (hupdate : (s₀.replay log).updateBatch fuel pc = .ok (wb, updates)) :
    AllAuthentic cr s₀ (log ++ [.effect (.write wb)]) := by
  refine h.snoc (fun pc' hpc => ?_) fun tc htc => .inl ?_
  · rcases keepsPc_update hupdate hpc with hold | rfl
    · exact .inl hold
    · exact .inr hauthentic
  · have hkept := BlockTree.write_update_of_isProgress hupdate (v := .highestTc) rfl (by simp)
      (by simp)
    exact hkept.symm.trans htc

theorem setHighestTc (h : AllAuthentic cr s₀ log) {tc : TimeoutCertificate}
    (hauthentic : tc.Authentic cr s₀ log) :
    AllAuthentic cr s₀ (log ++ [.effect (.write (WriteBatch.setHighestTc tc))]) := by
  refine h.snoc (fun _ hpc => .inl (hpc.congr rfl rfl fun _ => rfl)) fun tc' htc => .inr ?_
  have hstored : (s₀.replay log).write (WriteBatch.setHighestTc tc) .highestTc = some tc :=
    Store.apply_set (s₀.replay log) Var.highestTc tc
  obtain rfl : tc = tc' := Option.some.inj (hstored.symm.trans htc)
  exact hauthentic

end AllAuthentic

/-! ## Runs -/

/-- The certificates kept are authentic, and the timeout votes collected are verified votes
for validator sets held before. -/
structure AuthenticPoint (cr : Crypto) (config : Configuration) (s₀ : BlockTree) (p : Point)
    (c : TimeoutVoteCollectors) : Prop where
  kept : AllAuthentic cr s₀ p.past
  collected : c.Sound cr config.chainId (Held s₀ p.past)

namespace AuthenticPoint

variable {p p' : Point} {c : TimeoutVoteCollectors} {pc : PhaseCertificate}

/-- The collectors stay sound as the run goes on. -/
theorem of_prefix (h : AuthenticPoint cr config s₀ p c) (hpast : p.past <+: p'.past)
    (hkept : AllAuthentic cr s₀ p'.past) : AuthenticPoint cr config s₀ p' c :=
  ⟨hkept, h.collected.mono fun _ hheld => hheld.mono hpast⟩

theorem emit (h : AuthenticPoint cr config s₀ p c) {e : Replica.Effect}
    (hkept : AllAuthentic cr s₀ (p.past ++ [.effect e])) :
    AuthenticPoint cr config s₀ (p.emit e) c := by
  rw [← Point.past_emit] at hkept
  exact h.of_prefix (by simp) hkept

theorem act (h : AuthenticPoint cr config s₀ p c) (a : Action) :
    AuthenticPoint cr config s₀ (p.emit (.act a)) c :=
  h.emit (h.kept.act a)

theorem tell (h : AuthenticPoint cr config s₀ p c) (updates : Option ValidatorSetUpdates) :
    AuthenticPoint cr config s₀ (p.tell updates) c := by
  cases updates with
  | none => exact h
  | some updates => exact h.act _

theorem update (h : AuthenticPoint cr config s₀ p c) {fuel : Nat} {wb : WriteBatch}
    {updates : Option ValidatorSetUpdates}
    (hauthentic : pc.Authentic cr s₀ p.past)
    (hupdate : (p.tree s₀).updateBatch fuel pc = .ok (wb, updates)) :
    AuthenticPoint cr config s₀ (p.emit (.write wb)) c := by
  rw [Point.tree_eq] at hupdate
  exact h.emit (h.kept.update hauthentic hupdate)

theorem insert (h : AuthenticPoint cr config s₀ p c) {block : Block}
    {appStateUpdates : Option AppStateUpdates} {validatorSetUpdates : Option ValidatorSetUpdates}
    (hcorrect : block.isCorrect cr (p.tree s₀) = .ok true) :
    AuthenticPoint cr config s₀
      (p.emit (.write ((p.tree s₀).insertBatch block appStateUpdates validatorSetUpdates))) c := by
  rw [Point.tree_eq] at hcorrect ⊢
  exact h.emit (h.kept.insert hcorrect)

theorem authentic (hcorrect : pc.isCorrect cr (p.tree s₀) = .ok true) :
    pc.Authentic cr s₀ p.past := by
  rw [Point.tree_eq] at hcorrect
  exact authentic_of_isCorrect hcorrect

/-- The justify of a block is correct before the block is inserted, and acted upon then. -/
theorem updateInserted (h : AuthenticPoint cr config s₀ p c) {block : Block}
    {appStateUpdates : Option AppStateUpdates} {validatorSetUpdates : Option ValidatorSetUpdates}
    {fuel : Nat} {wb : WriteBatch} {updates : Option ValidatorSetUpdates}
    (hcorrect : block.isCorrect cr (p.tree s₀) = .ok true)
    (hupdate : ((p.tree s₀).insert block appStateUpdates validatorSetUpdates).updateBatch fuel
      block.justify = .ok (wb, updates)) :
    AuthenticPoint cr config s₀ ((p.emit (.write ((p.tree s₀).insertBatch block appStateUpdates
      validatorSetUpdates))).emit (.write wb)) c := by
  have hauthentic : block.justify.Authentic cr s₀ p.past := authentic (justify_isCorrect hcorrect)
  have hbatch : ((p.emit (.write ((p.tree s₀).insertBatch block appStateUpdates
      validatorSetUpdates))).tree s₀).updateBatch fuel block.justify = .ok (wb, updates) := by
    rw [Point.tree_emit]
    exact hupdate
  exact (h.insert hcorrect).update (hauthentic.mono (by simp)) hbatch

/-- New collectors are for the current validator sets. -/
theorem new (hkept : AllAuthentic cr s₀ p.past) {v : ViewNumber} {vss : ValidatorSetState}
    (hvss : (p.tree s₀).kv.validatorSetState = .ok vss) :
    AuthenticPoint cr config s₀ p (.new config.chainId v vss) := by
  rw [Point.tree_eq] at hvss
  obtain ⟨hcommitted, hprevious⟩ := held_validatorSetState hvss
  exact ⟨hkept, ActiveCollectorPair.sound_new v hcommitted hprevious⟩

end AuthenticPoint

/-- That certificates are authentic is kept by every move of a replica. -/
def authenticity (cr : Crypto) (config : Configuration) (apps : App → Prop) (s₀ : BlockTree)
    (hs₀ : AllAuthentic cr s₀ []) : RunInvariant cr config apps s₀ where
  Open := AuthenticPoint cr config s₀
  Halt p := AllAuthentic cr s₀ p.past
  Quiet _ := True
  Admits _ := True
  start hvss := AuthenticPoint.new (p := ⟨[], []⟩) hs₀ hvss
  next h _ := h.of_prefix (by simp) (by simpa using h.kept)
  halt h := h.kept
  crash h _ hvss := by
    refine AuthenticPoint.new ?_ (by simpa using hvss)
    rw [Point.past_crash]
    exact h.keep rfl rfl (fun _ => rfl) rfl
  act h _ := h.act _
  enterView h := h.emit (h.kept.keep rfl rfl (fun _ => rfl) rfl)
  record h := h.emit (h.kept.keep rfl rfl (fun _ => rfl) rfl)
  insert h hcorrect _ _ _ := (h.insert hcorrect).kept
  updateInserted h hcorrect _ _ _ hupdate :=
    ⟨(h.updateInserted hcorrect hupdate).kept, (h.updateInserted hcorrect hupdate).tell _⟩
  accept h hcorrect _ hupdate :=
    ⟨(h.update (AuthenticPoint.authentic hcorrect) hupdate).kept,
      (h.update (AuthenticPoint.authentic hcorrect) hupdate).tell _⟩
  synced h _ hcorrect _ hupdate := h.update (AuthenticPoint.authentic hcorrect) hupdate
  follow h hvss := by
    obtain ⟨hcommitted, hprevious⟩ := held_validatorSetState (Point.tree_eq _ ▸ hvss)
    exact ⟨h.kept, h.collected.updateValidatorSets hcommitted hprevious⟩
  newView h hvss := AuthenticPoint.new h.kept hvss
  collect h hcorrect hcollect := by
    obtain ⟨hcollected, hsigned⟩ := h.collected.collect (fun _ => hcorrect) hcollect
    refine ⟨⟨h.kept, hcollected⟩, ?_⟩
    intro tc htc
    obtain ⟨vs, hheld, view, t, signatures, rfl, hsigned⟩ := hsigned tc htc
    exact AuthenticPoint.emit ⟨h.kept, hcollected⟩ (h.kept.setHighestTc ⟨vs, hheld, hsigned⟩)
  receiveTc h hcorrect _ :=
    h.emit (h.kept.setHighestTc (authentic_of_isCorrect_tc (Point.tree_eq _ ▸ hcorrect)))

/-- A new block tree keeps no certificate but the Genesis PC. -/
theorem keepsPc_initial {appState : AppStateUpdates} {vss : ValidatorSetState}
    {pc : PhaseCertificate} (h : KeepsPc (BlockTree.initial appState vss) pc) :
    pc = .genesisPc := by
  cases h with
  | highestPc h => exact (Option.some.inj (BlockTree.initial_highestPc.symm.trans h)).symm
  | lockedPc h => exact (Option.some.inj (BlockTree.initial_lockedPc.symm.trans h)).symm
  | justify b h =>
    rw [BlockTree.initial_of_block? rfl] at h
    cases h

theorem allAuthentic_initial {appState : AppStateUpdates} {vss : ValidatorSetState} :
    AllAuthentic cr (BlockTree.initial appState vss) [] where
  phase _ hpc := .inl (keepsPc_initial hpc)
  timeout := by
    intro tc htc
    rw [BlockTree.replay_nil, BlockTree.initial_highestTc] at htc
    cases htc

theorem allAuthentic_of_history {appState : AppStateUpdates} {vss : ValidatorSetState}
    (h : History cr config apps (BlockTree.initial appState vss) log) :
    AllAuthentic cr (BlockTree.initial appState vss) log := by
  let I := authenticity cr config apps (BlockTree.initial appState vss) allAuthentic_initial
  have hsuffices : I.Suffices fun _ _ _ _ => True :=
    RunInvariant.suffices_of_tree (Q := fun _ _ => True) (fun _ => trivial) fun _ _ => id
  obtain ⟨p, rfl, hhalt⟩ := RunInvariant.halt_of_history hsuffices h.under
  exact hhalt

/-- No unauthenticated certificate is ever kept: at any point of any run over a new block
tree, each certificate kept was correctly signed, before it was kept, by a validator set that
the tree held by then, the Genesis PC excepted. -/
theorem certificates_authentic (cr : Crypto) (config : Configuration) (apps : App → Prop)
    (appState : AppStateUpdates) (vss : ValidatorSetState) (log : List Event)
    (h : History cr config apps (BlockTree.initial appState vss) log) :
    AllAuthentic cr (BlockTree.initial appState vss) log :=
  allAuthentic_of_history h

/-- After three views a replica keeps a timeout certificate, and a highest PC and a lock that
are not the Genesis PC. -/
def keepsCertificates (s : BlockTree) : Bool :=
  s .highestTc == some Sample.timeout &&
  s .highestPc == some (Sample.certify 2 Sample.block₁.hash .generic) &&
  s .lockedPc == some (Sample.certify 1 Sample.block₀.hash .generic)

set_option maxRecDepth 100000 in
theorem reaches_keepsCertificates : Replica.reaches Sample.crypto (Sample.configuration 3)
    Sample.tree 20 Sample.firstThreeViews keepsCertificates = true := by
  decide +kernel

theorem certificates_authentic_after_three_views : ∃ log,
    History Sample.crypto (Sample.configuration 3) (· = Sample.app) Sample.tree log ∧
    keepsCertificates (Sample.tree.replay log) = true ∧
    AllAuthentic Sample.crypto Sample.tree log := by
  obtain ⟨log, hlog, hkeeps⟩ :=
    @exists_history_of_reaches _ _ (· = Sample.app) _ _ _ _ _ rfl Sample.app_firstThreeViews
      reaches_keepsCertificates
  exact ⟨log, hlog, hkeeps, certificates_authentic _ _ _ _ _ log hlog⟩

end HotStuffRs
