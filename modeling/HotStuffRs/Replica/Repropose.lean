import HotStuffRs.Replica.Immediacy

/-
Proposing a block again.

A leader whose highest PC is a Prepare or Precommit PC of an earlier view proposes its
block once more.  Its justify is checked against the lock as if the block were new.
-/

namespace HotStuffRs

open Kv Kv.Process Forest

namespace BlockTree

variable {s : BlockTree} {b : CryptoHash} {chainId : ChainID}

/-- The block can be read, and is safe. -/
def Acceptable (s : BlockTree) (chainId : ChainID) (b : CryptoHash) : Prop :=
  s.kv.contains b = true ∧ ∃ block, s.kv.block b = .ok (some block) ∧
    s.safeBlock block chainId = .ok true

/-- The block is in the tree, the lock is older than its justify or is on one of the next
three blocks that it extends, and its parent has updates if the justify is phased. -/
def AcceptsAgain (s : BlockTree) (b : CryptoHash) : Prop :=
  ∃ justify locked, s (.blockJustify b) = some justify ∧ s .lockedPc = some locked ∧
    (locked.view < justify.view ∨ NearLocked s locked justify.block) ∧
    (justify.phase ≠ .generic ↔
      ((s (.validatorSetUpdatesStatus justify.block)).getD .none).containsUpdates = true)

/-- What is known of the blocks of a tree since they were inserted. -/
structure Checked (chainId : ChainID) (s : BlockTree) : Prop where
  wf : s.WellFormed
  locked : (s .lockedPc).isSome = true
  justify : ∀ b j, s (.blockJustify b) = some j →
    (j.chainId = chainId ∨ j = .genesisPc) ∧ j.isBlockJustify = true

namespace Checked

theorem init {appState : AppStateUpdates} {vss : ValidatorSetState} :
    Checked chainId (initial appState vss) where
  wf := wellFormed_initial
  locked := by rw [initial_lockedPc]; rfl
  justify b j hj := by
    rw [initial_of_block? rfl] at hj
    cases hj

variable (h : s.Checked chainId)
include h

theorem insert {block : Block} {appStateUpdates : Option AppStateUpdates}
    {validatorSetUpdates : Option ValidatorSetUpdates} (hfresh : s.Fresh block)
    (hsafe : s.safeBlock block chainId = .ok true) :
    (s.insert block appStateUpdates validatorSetUpdates).Checked chainId := by
  obtain ⟨hpc, hblockJustify⟩ := safePc_of_safeBlock hsafe
  obtain ⟨hchain, -, -⟩ := safePc_cases hpc
  refine ⟨h.wf.insert hfresh.hash (h.wf.parent_of_safeBlock hsafe)
    fun j hj => (hfresh.same j hj).1, ?_, fun b j hj => ?_⟩
  · rw [insert_of_block?_eq_none rfl (by decide)]
    exact h.locked
  · by_cases hb : b = block.hash
    · subst hb
      rw [justify_insert, Option.some.injEq] at hj
      exact hj ▸ ⟨hchain, hblockJustify⟩
    · rw [field_insert_of_ne rfl rfl hb] at hj
      exact h.justify b j hj

theorem update {justify : PhaseCertificate} {fuel : Nat} {wb : WriteBatch}
    {updates : Option ValidatorSetUpdates} (hupdate : s.updateBatch fuel justify = .ok (wb, updates)) :
    Checked chainId (s.write wb) := by
  obtain ⟨locked, hlocked⟩ := Option.isSome_iff_exists.mp h.locked
  obtain ⟨locked', hlocked', -⟩ := lockedPc_update hlocked hupdate
  refine ⟨h.wf.update hupdate, by rw [hlocked']; rfl, fun b j hj => ?_⟩
  rcases field_write_update hupdate (v := .blockJustify b) rfl with hkept | hgone
  · exact h.justify b j (hkept ▸ hj)
  · rw [hgone] at hj
    cases hj

theorem note {v : Var} {x : v.Val} (hv : Protocol.IsNote v) :
    Checked chainId (s.write [.set v x]) := by
  refine ⟨h.wf.congr fun _ _ => Protocol.block_note hv, ?_, fun b j hj => ?_⟩
  · rw [Protocol.write_note hv (by simp [Protocol.IsNote])]
    exact h.locked
  · rw [Protocol.block_note hv rfl] at hj
    exact h.justify b j hj

/-- A block that was safe once is acceptable again if the lock and the parent allow it. -/
theorem acceptable_iff : s.Acceptable chainId b ↔ s.AcceptsAgain b := by
  obtain ⟨locked, hlocked⟩ := Option.isSome_iff_exists.mp h.locked
  constructor
  · rintro ⟨-, block, hblock, hsafe⟩
    obtain ⟨block', hblock', hjustify⟩ := h.wf.exists_block (h.wf.stored_of_block hblock)
    obtain rfl : block = block' := by
      rw [hblock] at hblock'
      exact Option.some.inj (Except.ok.inj hblock')
    obtain ⟨-, -, hlock, hphase⟩ := (safePc_iff hlocked).mp (safeBlock_iff.mp hsafe).1
    exact ⟨block.justify, locked, hjustify, hlocked, hlock, hphase⟩
  · rintro ⟨justify, locked', hjustify, hlocked', hlock, hphase⟩
    have hstored : s.Stored b := by rw [Stored, hjustify]; rfl
    obtain ⟨block, hblock, hjustify'⟩ := h.wf.exists_block hstored
    obtain rfl := Option.some.inj (hjustify'.symm.trans hjustify)
    obtain ⟨hchain, hblockJustify⟩ := h.justify b block.justify hjustify
    have hparent := (h.wf.parent b block.justify hjustify).symm.imp_left h.wf.contains_iff.mpr
    exact ⟨h.wf.contains_iff.mpr hstored, block, hblock, safeBlock_iff.mpr
      ⟨(safePc_iff hlocked').mpr ⟨hchain, hparent, hlock, hphase⟩, hblockJustify⟩⟩

/-- A replica that is locked on a block, and not by an older certificate than the justify of
the block, does not accept the block again. -/
theorem not_acceptable_of_locked {justify locked : PhaseCertificate}
    (hjustify : s (.blockJustify b) = some justify) (hlocked : s .lockedPc = some locked)
    (hblock : locked.block = b) (hview : justify.view ≤ locked.view) : ¬s.Acceptable chainId b := by
  rw [h.acceptable_iff]
  rintro ⟨justify', locked', hjustify', hlocked', hlock, -⟩
  obtain rfl := Option.some.inj (hjustify.symm.trans hjustify')
  obtain rfl := Option.some.inj (hlocked.symm.trans hlocked')
  have hup : s.up b = some justify.block := up_eq_some.mpr ⟨justify, hjustify, rfl⟩
  have hnot := h.wf.acyclic.not_extends_parent hup
  rcases hlock with hlt | hsame | hparent | ⟨parent, hparent, hgrandparent⟩
  · exact hlt.not_ge hview
  · exact hnot (hsame ▸ hblock ▸ .refl _)
  · exact hnot (.parent (hblock ▸ hparent))
  · exact hnot (.of_parent hparent (.parent (hblock ▸ hgrandparent)))

end Checked

theorem reproposeBlock_eq_ok {currentView : ViewNumber}
    (h : s.reproposeBlock currentView = .ok (some b)) : ∃ highestPc, s.kv.highestPc = .ok highestPc ∧
      b = highestPc.block ∧ (highestPc.phase = .prepare ∨ highestPc.phase = .precommit) := by
  simp only [reproposeBlock, Result.bind_eq_ok] at h
  obtain ⟨highestPc, hhighest, h⟩ := h
  have hview : ∀ block : CryptoHash, (do
      let next ← U64.add highestPc.view 1
      return if currentView ≠ next then some block else none : Result (Option CryptoHash)) =
        .ok (some b) → b = block := by
    intro block hb
    obtain ⟨next, -, hb⟩ := Result.bind_eq_ok.mp hb
    simp only [Result.pure_eq, Except.ok.injEq, Option.ite_none_right_eq_some] at hb
    exact (Option.some.inj hb.2).symm
  refine ⟨highestPc, hhighest, ?_⟩
  cases hphase : highestPc.phase with
  | prepare =>
    rw [hphase] at h
    exact ⟨hview _ h, .inl rfl⟩
  | precommit =>
    rw [hphase] at h
    exact ⟨hview _ h, .inr rfl⟩
  | generic | commit | decide =>
    rw [hphase] at h
    cases h

end BlockTree

namespace Sample

/-- A block with validator set updates, and a certificate of the given phase about it. -/
def proposeAndCertify (phase : Phase) : List Input :=
  [advance (.timeoutCertificate timeout), propose 1 block₀,
   input leader (.hotStuff (.newView ⟨7, 1, certify 1 block₀.hash phase⟩)) (3 * 10 ^ 9)].map raising

end Sample

namespace Protocol

open BlockTree

variable {cr : Crypto} {config : Configuration} {apps : App → Prop}

theorem checked_of_history {appState : AppStateUpdates} {vss : ValidatorSetState}
    {log : List Event} (h : History cr config apps (initial appState vss) log)
    (hfresh : Inserted (initial appState vss) (fun s block _ => s.Fresh block) log) :
    Checked config.chainId ((initial appState vss).replay log) := by
  refine history_invariant h hfresh .init ?_ ?_ ?_
  · exact fun hs _ hsafe _ _ hblock => hs.insert hblock hsafe
  · exact fun hs hupdate => hs.update hupdate
  · exact fun hs hv => hs.note hv

/-- In every reachable tree, the block that a leader proposes again is the one of the highest
PC, and is acceptable exactly if the lock and the parent of the block allow it.  They do not if
the replica is locked on the block itself, not by an older certificate than its justify. -/
theorem repropose_acceptable_iff {appState : AppStateUpdates} {vss : ValidatorSetState}
    {log : List Event} (h : History cr config apps (initial appState vss) log)
    (hfresh : Inserted (initial appState vss) (fun s block _ => s.Fresh block) log)
    {currentView : ViewNumber} {b : CryptoHash}
    (hrepropose : ((initial appState vss).replay log).reproposeBlock currentView = .ok (some b)) :
    let s := (initial appState vss).replay log
    (∃ highestPc, s.kv.highestPc = .ok highestPc ∧ b = highestPc.block ∧
      (highestPc.phase = .prepare ∨ highestPc.phase = .precommit)) ∧
    (s.Acceptable config.chainId b ↔ s.AcceptsAgain b) ∧
    ∀ justify locked, s (.blockJustify b) = some justify → s .lockedPc = some locked →
      locked.block = b → justify.view ≤ locked.view → ¬s.Acceptable config.chainId b := by
  have hchecked := checked_of_history h hfresh
  exact ⟨reproposeBlock_eq_ok hrepropose, hchecked.acceptable_iff,
    fun _ _ => hchecked.not_acceptable_of_locked⟩

/-! ## Proposing a block again after a Prepare PC and after a Precommit PC -/

/-- Whether a batch that inserts a block inserts a new one. -/
def insertsFresh (s : BlockTree) : WriteBatch → Bool
  | .set (.blockHeight b) _ :: _ => b != 0 && s (.blockJustify b) == none
  | _ => true

theorem absent_of_checkLog {s₀ : BlockTree} {log : List Event}
    (h : checkLog insertsFresh s₀ log = true) :
    Inserted s₀ (fun s block _ => block.hash ≠ 0 ∧ s (.blockJustify block.hash) = none) log := by
  intro before block appStateUpdates validatorSetUpdates hlog
  have hinserted := check_of_checkLog h hlog
  generalize s₀.replay before = s at hinserted ⊢
  have hchecked : (block.hash != 0 && s (.blockJustify block.hash) == none) = true := hinserted
  simpa only [Bool.and_eq_true, bne_iff_ne, ne_eq, beq_iff_eq] using hchecked

theorem fresh_of_checkLog {s₀ : BlockTree} {log : List Event}
    (h : checkLog insertsFresh s₀ log = true) :
    Inserted s₀ (fun s block _ => s.Fresh block) log := by
  intro before block appStateUpdates validatorSetUpdates hlog
  obtain ⟨hne, hnone⟩ := absent_of_checkLog h before block _ _ hlog
  refine ⟨hne, fun j hj => ?_⟩
  rw [hnone] at hj
  cases hj

theorem app_proposeAndCertify (phase : Phase) :
    ∀ input ∈ Sample.proposeAndCertify phase, input.app = Sample.raisingApp :=
  app_raising _

/-- Whether `block₀` is to be proposed again in view 5, and the lock is as given. -/
def reproposes (locked : PhaseCertificate) (s : BlockTree) : Bool :=
  s.reproposeBlock 5 == .ok (some Sample.block₀.hash) && s .lockedPc == some locked &&
    s (.blockJustify Sample.block₀.hash) == some .genesisPc &&
    s (.validatorSetUpdatesStatus 0) == none

set_option maxRecDepth 100000 in
theorem checks_proposeAndCertify_prepare : Replica.checks Sample.crypto (Sample.configuration 3)
    Sample.tree 20 (fun _ _ => true) (Sample.proposeAndCertify .prepare)
    (fun log r => checkLog insertsFresh Sample.tree log && reproposes .genesisPc r.tree) = true := by
  decide +kernel

set_option maxRecDepth 100000 in
theorem checks_proposeAndCertify_precommit : Replica.checks Sample.crypto (Sample.configuration 3)
    Sample.tree 20 (fun _ _ => true) (Sample.proposeAndCertify .precommit)
    (fun log r => checkLog insertsFresh Sample.tree log &&
      reproposes (Sample.certify 1 Sample.block₀.hash .precommit) r.tree) = true := by
  decide +kernel

theorem exists_history_of_reproposes {phase : Phase} {locked : PhaseCertificate}
    (h : Replica.checks Sample.crypto (Sample.configuration 3) Sample.tree 20 (fun _ _ => true)
      (Sample.proposeAndCertify phase)
      (fun log r => checkLog insertsFresh Sample.tree log && reproposes locked r.tree) = true) :
    ∃ log, History Sample.crypto (Sample.configuration 3) (· = Sample.raisingApp) Sample.tree log ∧
      Inserted Sample.tree (fun s block _ => s.Fresh block) log ∧
      (Sample.tree.replay log).reproposeBlock 5 = .ok (some Sample.block₀.hash) ∧
      Sample.tree.replay log .lockedPc = some locked ∧
      Sample.tree.replay log (.blockJustify Sample.block₀.hash) = some .genesisPc ∧
      Sample.tree.replay log (.validatorSetUpdatesStatus 0) = none := by
  obtain ⟨log, r, history, htree, hlog⟩ := exists_history_of_checks (app_proposeAndCertify phase) h
  rw [htree] at hlog
  simp only [reproposes, Bool.and_eq_true, beq_iff_eq] at hlog
  obtain ⟨hinserted, ⟨⟨hrepropose, hlocked⟩, hjustify⟩, hstatus⟩ := hlog
  exact ⟨log, history, fresh_of_checkLog hinserted, hrepropose, hlocked, hjustify, hstatus⟩

theorem repropose_acceptable_iff_prepare : ∃ log,
    History Sample.crypto (Sample.configuration 3) (· = Sample.raisingApp) Sample.tree log ∧
    (Sample.tree.replay log).reproposeBlock 5 = .ok (some Sample.block₀.hash) ∧
    BlockTree.Acceptable (Sample.tree.replay log) 7 Sample.block₀.hash := by
  obtain ⟨log, history, hfresh, hrepropose, hlocked, hjustify, hstatus⟩ :=
    exists_history_of_reproposes checks_proposeAndCertify_prepare
  obtain ⟨-, hiff, -⟩ := repropose_acceptable_iff history hfresh hrepropose
  have hagain : AcceptsAgain (Sample.tree.replay log) Sample.block₀.hash := by
    refine ⟨_, _, hjustify, hlocked, .inr (.inl rfl), ?_⟩
    have hnone : Sample.tree.replay log (.validatorSetUpdatesStatus
        PhaseCertificate.genesisPc.block) = none := hstatus
    rw [hnone]
    exact iff_of_false (fun hne => hne rfl) (by decide)
  exact ⟨log, history, hrepropose, hiff.mpr hagain⟩

/-- A leader that is locked on the block itself by its Precommit PC proposes it in vain. -/
theorem reproposed_block_not_acceptable : ¬∀ (cr : Crypto) (config : Configuration)
    (apps : App → Prop) (appState : AppStateUpdates) (vss : ValidatorSetState) (log : List Event)
    (currentView : ViewNumber) (b : CryptoHash), History cr config apps (initial appState vss) log →
    Inserted (initial appState vss) (fun s block _ => s.Fresh block) log →
    ((initial appState vss).replay log).reproposeBlock currentView = .ok (some b) →
    ((initial appState vss).replay log).Acceptable config.chainId b := by
  intro h
  obtain ⟨log, history, hfresh, hrepropose, hlocked, hjustify, -⟩ :=
    exists_history_of_reproposes checks_proposeAndCertify_precommit
  have hchecked : Checked 7 (Sample.tree.replay log) := checked_of_history history hfresh
  refine hchecked.not_acceptable_of_locked hjustify hlocked rfl ?_
    (h _ _ _ _ _ log 5 Sample.block₀.hash history hfresh hrepropose)
  decide

end Protocol
end HotStuffRs
