import HotStuffRs.BlockTree.AppView
import HotStuffRs.BlockTree.Pruning
import HotStuffRs.Replica.Fallback
import HotStuffRs.Replica.Numbers
import HotStuffRs.Replica.References
import HotStuffRs.Types.BlockHash

/-
Block trees in which nothing that is looked up is missing.

The functions of the block tree fail on missing variables, on numbers that leave their range, on
validator sets without a leader and on blocks that cannot be hashed.  No run comes to a tree with
any of these, if it starts with usable validator sets and the blocks that it inserts are
admissible.
-/

namespace HotStuffRs

open Kv
open Result (Eventually)

/-- Validator sets that quorums and leaders can be computed of, and that the updates of the apps
do not lead out of. -/
structure UsableSets (apps : App → Prop) (good : ValidatorSet → Prop) : Prop where
  bounded : ∀ vs, good vs → vs.Bounded
  leader : ∀ vs, good vs → vs.totalPower % 2 ^ 64 ≠ 0
  updates : ∀ app, apps app → ∀ block appStateUpdates updates,
    app.Validates block appStateUpdates (some updates) → ∀ vs, good vs → good (vs.applyUpdates updates)

/-- Blocks that can be hashed, that their hashes tell apart, and whose numbers can be added to. -/
structure Admissible (cr : Crypto) (blocks : Set Block) : Prop where
  free : Block.CollisionFree cr blocks
  hashable : ∀ block ∈ blocks, ∃ bytes,
    Block.hashInput block.height block.justify block.dataHash = .ok bytes
  nonzero : ∀ block ∈ blocks, Block.hashOf cr block.height block.justify block.dataHash ≠ .ok 0
  bounded : ∀ block ∈ blocks, block.Bounded

/-- The view of a certificate for a block that is to be proposed again can be added to. -/
def PhaseCertificate.Bounded (pc : PhaseCertificate) : Prop :=
  pc.phase = .prepare ∨ pc.phase = .precommit → pc.view ≠ U64.max

/-- Whether a variable says which validator sets are in effect, or will be. -/
def Var.governs : Var → Bool
  | committedValidatorSet | previousValidatorSet | validatorSetUpdateBlockHeight
  | validatorSetUpdateDecided | validatorSetUpdatesStatus _ => true
  | _ => false

namespace BlockTree

variable {cr : Crypto} {apps : App → Prop} {good : ValidatorSet → Prop} {blocks : Set Block}
  {s : BlockTree} {block : Block} {appStateUpdates : Option AppStateUpdates}
  {validatorSetUpdates : Option ValidatorSetUpdates} {justify : PhaseCertificate} {fuel : Nat}
  {wb : WriteBatch} {updates : Option ValidatorSetUpdates}

/-! ## Validator sets -/


/-- The validator sets of a tree are there, and pending updates do not lead out of the good
ones. -/
structure Governed (good : ValidatorSet → Prop) (s : BlockTree) : Prop where
  committed : ∃ vs, s .committedValidatorSet = some vs ∧ good vs
  previous : ∃ vs, s .previousValidatorSet = some vs ∧ good vs
  decided : (s .validatorSetUpdateDecided).isSome = true
  pending : ∀ b updates, s (.validatorSetUpdatesStatus b) = some (.pending updates) →
    ∀ vs, good vs → good (vs.applyUpdates updates)

theorem cases_of_governs {target : CryptoHash}
    {committed : List (CryptoHash × Option ValidatorSetUpdates)}
    (h : commit s fuel target = .ok (wb, committed)) {o : Op Var.Val} (ho : o ∈ wb)
    (hgoverns : o.key.governs = true) :
    (o = .delete o.key ∧ o.key.block?.isSome = true) ∨
      ∃ b target height vs updates, s (.validatorSetUpdatesStatus b) = some (.pending updates) ∧
        s .committedValidatorSet = some vs ∧ o ∈ validatorSetOps target height vs updates := by
  simp only [commit, kv_highestCommittedBlockHeight, Result.ok_bind, Result.bind_eq_ok,
    Result.pure_eq, Except.ok.injEq, Prod.mk.injEq] at h
  obtain ⟨us, -, rounds, hrounds, rfl, -⟩ := h
  obtain ⟨round, hround, ho⟩ := List.mem_flatMap.mp ho
  obtain ⟨b, -, hcommit⟩ := (Result.mem_of_mapM hrounds).mp hround
  obtain ⟨height, siblings, appState, validatorSet, updates, -, hsiblings, happState,
    hvalidatorSet, rfl⟩ := of_commitBlock hcommit
  simp only [List.mem_append, mem_commitAppStateUpdates happState,
    mem_commitValidatorSetUpdates hvalidatorSet, WriteBatch.setBlockAtHeight,
    WriteBatch.setHighestCommittedBlock, List.mem_singleton] at ho
  rcases ho with (((rfl | ho) | ⟨_, -, ho | rfl⟩) | ⟨updates', vs, hpending, hvs, ho⟩) | rfl
  · cases hgoverns
  · rcases cases_of_mem_deleteSiblings hsiblings ho with hdelete | ⟨p, hp⟩
    · exact .inl hdelete
    · rw [hp] at hgoverns
      cases hgoverns
  · obtain ⟨key, hk⟩ := set_of_mem_applyAppStateUpdates ho
    rw [hk] at hgoverns
    cases hgoverns
  · cases hgoverns
  · exact .inr ⟨b, target, height, vs, updates', hpending, hvs, ho⟩
  · cases hgoverns

/-- What an update does with the variables of the validator sets: it deletes the updates of pruned
blocks, puts pending updates into effect, and marks them as decided. -/
theorem cases_of_mem_updateBatch (h : s.updateBatch fuel justify = .ok (wb, updates))
    {o : Op Var.Val} (ho : o ∈ wb) (hgoverns : o.key.governs = true) :
    (o = .delete o.key ∧ o.key.block?.isSome = true) ∨ o = .set .validatorSetUpdateDecided true ∨
      ∃ b target height vs updates, s (.validatorSetUpdatesStatus b) = some (.pending updates) ∧
        s .committedValidatorSet = some vs ∧ o ∈ validatorSetOps target height vs updates := by
  obtain ⟨highest, new, target, commitBatch, -, -, -, hcommit, hnone, rfl⟩ := updateBatch_eq_ok h
  have hprogress : o.key.isProgress = false := by
    generalize o.key = v at hgoverns ⊢
    cases v <;> first | rfl | cases hgoverns
  rcases List.mem_append.mp ho with ho | ho
  · rcases List.mem_append.mp ho with ho | ho
    · exact (ne_key_of_mem_highestAndLock hprogress o ho rfl).elim
    · cases target with
      | none =>
        rw [hnone rfl] at ho
        cases ho
      | some target =>
        obtain ⟨committed, hcommit⟩ := hcommit target rfl
        exact (cases_of_governs hcommit ho hgoverns).imp_right .inr
  · split at ho
    · exact .inr (.inl (List.mem_singleton.mp ho))
    · cases ho

/-- What an update deletes among them is about blocks. -/
theorem isSome_write_update (h : s.updateBatch fuel justify = .ok (wb, updates)) {v : Var}
    (hblock : v.block? = none) (hgoverns : v.governs = true) (hs : (s v).isSome = true) :
    (s.write wb v).isSome = true := by
  refine Store.isSome_write s hs fun hmem => ?_
  rcases cases_of_mem_updateBatch h hmem hgoverns with ⟨-, hsome⟩ | heq | ⟨_, _, _, _, _, -, -, ho⟩
  · have hsome' : v.block?.isSome = true := hsome
    rw [hblock] at hsome'
    cases hsome'
  · cases heq
  · simp [validatorSetOps] at ho

namespace Governed

theorem initial {appState : AppStateUpdates} {vss : ValidatorSetState}
    (hcommitted : good vss.committedValidatorSet) (hprevious : good vss.previousValidatorSet) :
    Governed good (BlockTree.initial appState vss) where
  committed := ⟨_, initial_of_mem_initialOps
    (o := .set .committedValidatorSet vss.committedValidatorSet) (by simp [initialOps]), hcommitted⟩
  previous := ⟨_, initial_of_mem_initialOps
    (o := .set .previousValidatorSet vss.previousValidatorSet) (by simp [initialOps]), hprevious⟩
  decided := by
    have hset : BlockTree.initial appState vss .validatorSetUpdateDecided =
        some vss.updateDecided := initial_of_mem_initialOps
      (o := .set .validatorSetUpdateDecided vss.updateDecided) (by simp [initialOps])
    exact Option.isSome_iff_exists.mpr ⟨_, hset⟩
  pending b updates hb := by
    rw [initial_of_block? (v := .validatorSetUpdatesStatus b) rfl] at hb
    cases hb

variable (h : Governed good s)
include h

theorem congr {s' : BlockTree} (hcommitted : s' .committedValidatorSet = s .committedValidatorSet)
    (hprevious : s' .previousValidatorSet = s .previousValidatorSet)
    (hdecided : s' .validatorSetUpdateDecided = s .validatorSetUpdateDecided)
    (hpending : ∀ b updates, s' (.validatorSetUpdatesStatus b) = some (.pending updates) →
      s (.validatorSetUpdatesStatus b) = some (.pending updates) ∨
        ∀ vs, good vs → good (vs.applyUpdates updates)) : Governed good s' where
  committed := hcommitted ▸ h.committed
  previous := hprevious ▸ h.previous
  decided := hdecided ▸ h.decided
  pending b updates hb := (hpending b updates hb).elim (h.pending b updates) id

/-- The updates of an app wait for the commit of their block. -/
theorem insert (hupdates : ∀ updates ∈ validatorSetUpdates,
      ∀ vs, good vs → good (vs.applyUpdates updates)) :
    Governed good (s.insert block appStateUpdates validatorSetUpdates) := by
  refine h.congr (insert_of_block?_eq_none rfl (by simp)) (insert_of_block?_eq_none rfl (by simp))
    (insert_of_block?_eq_none rfl (by simp)) fun b updates hb => ?_
  rcases Store.cases_of_write s hb with hset | ⟨-, hold⟩
  · right
    cases mem_insertBatch.mp hset with
    | block ho => cases (key_of_mem_setBlock ho).1
    | validatorSet hsome => exact hupdates _ hsome
  · exact .inl hold

theorem update (hupdate : s.updateBatch fuel justify = .ok (wb, updates)) :
    Governed good (s.write wb) := by
  obtain ⟨committed, hcommitted, hgood⟩ := h.committed
  obtain ⟨previous, hprevious, hgood'⟩ := h.previous
  have hset : ∀ {o : Op Var.Val}, o ∈ wb → o.key.governs = true → o ≠ .delete o.key →
      o = .set .validatorSetUpdateDecided true ∨ ∃ target height updates,
        good (committed.applyUpdates updates) ∧ o ∈ validatorSetOps target height committed updates := by
    intro o ho hgoverns hne
    rcases cases_of_mem_updateBatch hupdate ho hgoverns with ⟨hdelete, -⟩ | hdecided |
      ⟨b, target, height, vs, updates, hb, hvs, ho⟩
    · exact (hne hdelete).elim
    · exact .inl hdecided
    · obtain rfl := Option.some.inj (hcommitted.symm.trans hvs)
      exact .inr ⟨target, height, updates, h.pending b updates hb committed hgood, ho⟩
  constructor
  · obtain ⟨vs, hvs⟩ := Option.isSome_iff_exists.mp (isSome_write_update hupdate
      (v := .committedValidatorSet) rfl rfl (Option.isSome_iff_exists.mpr ⟨_, hcommitted⟩))
    refine ⟨vs, hvs, ?_⟩
    rcases Store.cases_of_write s hvs with hmem | ⟨-, hold⟩
    · rcases hset hmem rfl (by simp) with heq | ⟨target, height, updates, hupdates, ho⟩
      · cases heq
      · obtain rfl : vs = committed.applyUpdates updates := by simpa [validatorSetOps] using ho
        exact hupdates
    · obtain rfl := Option.some.inj (hcommitted.symm.trans hold)
      exact hgood
  · obtain ⟨vs, hvs⟩ := Option.isSome_iff_exists.mp (isSome_write_update hupdate
      (v := .previousValidatorSet) rfl rfl (Option.isSome_iff_exists.mpr ⟨_, hprevious⟩))
    refine ⟨vs, hvs, ?_⟩
    rcases Store.cases_of_write s hvs with hmem | ⟨-, hold⟩
    · rcases hset hmem rfl (by simp) with heq | ⟨target, height, updates, -, ho⟩
      · cases heq
      · obtain rfl : vs = committed := by simpa [validatorSetOps] using ho
        exact hgood
    · obtain rfl := Option.some.inj (hprevious.symm.trans hold)
      exact hgood'
  · exact isSome_write_update hupdate rfl rfl h.decided
  · intro b updates hb
    rcases Store.cases_of_write s hb with hmem | ⟨-, hold⟩
    · rcases hset hmem rfl (by simp) with heq | ⟨target, height, updates', -, ho⟩
      · cases heq
      · simp [validatorSetOps] at ho
    · exact h.pending b updates hold

theorem note {v : Var} {x : v.Val} (hv : Protocol.IsNote v) : Governed good (s.write [.set v x]) := by
  have hkept : ∀ v' : Var, ¬Protocol.IsNote v' → s.write [.set v x] v' = s v' :=
    fun _ hv' => Protocol.write_note hv hv'
  refine h.congr (hkept _ (by simp [Protocol.IsNote])) (hkept _ (by simp [Protocol.IsNote]))
    (hkept _ (by simp [Protocol.IsNote])) fun b updates hb => .inl ?_
  rwa [hkept _ (by simp [Protocol.IsNote])] at hb

theorem validatorSetState : ∃ vss, s.kv.validatorSetState = .ok vss ∧
    good vss.committedValidatorSet ∧ good vss.previousValidatorSet := by
  obtain ⟨committed, hcommitted, hgood⟩ := h.committed
  obtain ⟨previous, hprevious, hgood'⟩ := h.previous
  obtain ⟨decided, hdecided⟩ := Option.isSome_iff_exists.mp h.decided
  exact ⟨⟨committed, previous, _, decided⟩,
    kv_validatorSetState_eq_ok.mpr ⟨hcommitted, hprevious, rfl, hdecided⟩, hgood, hgood'⟩

/-- Whether a certificate is correct can be said. -/
theorem isCorrect (hbounded : ∀ vs, good vs → vs.Bounded) (cr : Crypto) (pc : PhaseCertificate) :
    ∃ correct, pc.isCorrect cr s = .ok correct := by
  obtain ⟨vss, hvss, hcommitted, hprevious⟩ := h.validatorSetState
  obtain ⟨hvs, hvs', -, -⟩ := kv_validatorSetState_eq_ok.mp hvss
  obtain ⟨signingSet, hsigning⟩ := pc.signingSet_ok hvss
  unfold PhaseCertificate.isCorrect
  split
  · exact ⟨_, rfl⟩
  · rw [hsigning, Result.ok_bind]
    cases signingSet with
    | none => exact ⟨_, rfl⟩
    | some vs =>
      have hgood : good vs := by
        rcases signingSet_cases hsigning with heq | heq | ⟨committed, updates, heq, hpending, rfl⟩
        · rw [hvs] at heq
          exact Option.some.inj heq ▸ hcommitted
        · rw [hvs'] at heq
          exact Option.some.inj heq ▸ hprevious
        · rw [hvs] at heq
          obtain rfl := Option.some.inj heq
          exact h.pending _ _ hpending _ hcommitted
      exact (hbounded vs hgood).isCorrectlySigned cr _ _

end Governed

/-! ## Blocks -/

/-- Every block of the tree is one of `blocks`, up to its data. -/
def Holding (cr : Crypto) (blocks : Set Block) (s : BlockTree) : Prop :=
  ∀ b j, s (.blockJustify b) = some j → ∃ block ∈ blocks,
    Block.hashOf cr block.height block.justify block.dataHash = .ok b ∧ block.justify = j ∧
      s (.blockHeight b) = some block.height

namespace Holding

variable (h : Holding cr blocks s)
include h

theorem congr {s' : BlockTree}
    (hkept : ∀ v b, v = .blockJustify b ∨ v = .blockHeight b → s' v = s v) :
    Holding cr blocks s' := by
  intro b j hj
  rw [hkept _ b (.inl rfl)] at hj
  obtain ⟨block, hblock, hhash, hjustify, hheight⟩ := h b j hj
  exact ⟨block, hblock, hhash, hjustify, (hkept _ b (.inr rfl)).trans hheight⟩

/-- A correct block is a new one, or the same as before. -/
theorem fresh (hadmissible : Admissible cr blocks) (hblock : block ∈ blocks)
    (hcorrect : block.isCorrect cr s = .ok true) : s.Fresh block := by
  have hhash := Block.hashOf_of_isCorrect hcorrect
  constructor
  · intro hzero
    exact hadmissible.nonzero block hblock (hzero ▸ hhash)
  · intro j hj
    obtain ⟨block', hblock', hhash', rfl, hheight⟩ := h block.hash j hj
    obtain ⟨bytes, hbytes, hsha⟩ := Block.hashOf_eq_ok.mp hhash
    obtain ⟨bytes', hbytes', hsha'⟩ := Block.hashOf_eq_ok.mp hhash'
    have hsame : bytes = bytes' :=
      hadmissible.free ⟨block, hblock, hbytes⟩ ⟨block', hblock', hbytes'⟩ (hsha.trans hsha'.symm)
    subst hsame
    obtain ⟨hsameHeight, hsameJustify, -⟩ := Block.hashInput_inj hbytes hbytes'
    exact ⟨hsameJustify.symm, by rw [hheight, hsameHeight]⟩

theorem insert (hblock : block ∈ blocks) (hcorrect : block.isCorrect cr s = .ok true) :
    Holding cr blocks (s.insert block appStateUpdates validatorSetUpdates) := by
  intro b j hj
  by_cases hb : b = block.hash
  · subst hb
    rw [justify_insert, Option.some.injEq] at hj
    exact ⟨block, hblock, Block.hashOf_of_isCorrect hcorrect, hj, height_insert⟩
  · rw [field_insert_of_ne rfl rfl hb] at hj
    obtain ⟨block', hblock', hhash, hjustify, hheight⟩ := h b j hj
    exact ⟨block', hblock', hhash, hjustify, (field_insert_of_ne rfl rfl hb).trans hheight⟩

theorem update (wf : s.WellFormed) (hupdate : s.updateBatch fuel justify = .ok (wb, updates)) :
    Holding cr blocks (s.write wb) := by
  intro b j hj
  have hjustify : s.write wb (.blockJustify b) = s (.blockJustify b) := by
    refine (field_write_update hupdate rfl).resolve_right fun hgone => ?_
    rw [hgone] at hj
    cases hj
  obtain ⟨block, hblock, hhash, rfl, hheight⟩ := h b j (hjustify ▸ hj)
  refine ⟨block, hblock, hhash, rfl, ?_⟩
  obtain ⟨height, hkept⟩ := (wf.update hupdate).exists_height (Option.isSome_iff_exists.mpr ⟨_, hj⟩)
  rcases field_write_update hupdate (v := .blockHeight b) rfl with hsame | hgone
  · exact hsame.trans hheight
  · rw [hgone] at hkept
    cases hkept

theorem boundedAt (hadmissible : Admissible cr blocks) (wf : s.WellFormed) (b : CryptoHash) :
    s.BoundedAt b where
  height height hb := by
    obtain ⟨j, hj⟩ := Option.isSome_iff_exists.mp (wf.stored_of_height hb)
    obtain ⟨block, hblock, -, -, hheight⟩ := h b j hj
    rw [hb, Option.some.injEq] at hheight
    exact hheight ▸ (hadmissible.bounded block hblock).1
  justify j hj := by
    obtain ⟨block, hblock, -, rfl, -⟩ := h b j hj
    exact (hadmissible.bounded block hblock).2

end Holding

/-! ## Nothing is missing -/

/-- A tree in which nothing is missing that is looked up. -/
structure Sturdy (cr : Crypto) (blocks : Set Block) (good : ValidatorSet → Prop) (s : BlockTree) :
    Prop where
  wf : s.WellFormed
  holding : s.Holding cr blocks
  governed : s.Governed good
  lockedPc : (s .lockedPc).isSome = true
  highestPc : ∃ pc, s .highestPc = some pc ∧ pc.Bounded
  entered : (s .highestViewEntered).isSome = true

namespace Sturdy

theorem initial {appState : AppStateUpdates} {vss : ValidatorSetState}
    (hcommitted : good vss.committedValidatorSet) (hprevious : good vss.previousValidatorSet) :
    Sturdy cr blocks good (BlockTree.initial appState vss) where
  wf := wellFormed_initial
  holding b j hj := by
    rw [initial_of_block? (v := .blockJustify b) rfl] at hj
    cases hj
  governed := .initial hcommitted hprevious
  lockedPc := by
    rw [initial_lockedPc]
    rfl
  highestPc := by
    refine ⟨_, initial_highestPc, fun hphase => ?_⟩
    rcases hphase with hphase | hphase <;> cases hphase
  entered := by
    have hset : BlockTree.initial appState vss .highestViewEntered = some ViewNumber.init :=
      initial_of_mem_initialOps (o := .set .highestViewEntered ViewNumber.init)
        (by simp [initialOps])
    exact Option.isSome_iff_exists.mpr ⟨_, hset⟩

variable (h : Sturdy cr blocks good s)
include h

theorem insert {chainId : ChainID} (hadmissible : Admissible cr blocks) (hblock : block ∈ blocks)
    (hcorrect : block.isCorrect cr s = .ok true) (hsafe : s.safeBlock block chainId = .ok true)
    (hupdates : ∀ updates ∈ validatorSetUpdates,
      ∀ vs, good vs → good (vs.applyUpdates updates)) :
    Sturdy cr blocks good (s.insert block appStateUpdates validatorSetUpdates) := by
  have hkept : ∀ v : Var, v.block? = none → v ≠ .newestBlock →
      s.insert block appStateUpdates validatorSetUpdates v = s v :=
    fun _ => insert_of_block?_eq_none
  constructor
  · exact h.wf.insert_of_fresh (h.holding.fresh hadmissible hblock hcorrect) hsafe
  · exact h.holding.insert hblock hcorrect
  · exact h.governed.insert hupdates
  · rw [hkept _ rfl (by simp)]
    exact h.lockedPc
  · rw [hkept _ rfl (by simp)]
    exact h.highestPc
  · rw [hkept _ rfl (by simp)]
    exact h.entered

theorem update (hupdate : s.updateBatch fuel justify = .ok (wb, updates))
    (hbounded : .set .highestPc justify ∈ wb → justify.Bounded) :
    Sturdy cr blocks good (s.write wb) where
  wf := h.wf.update hupdate
  holding := h.holding.update h.wf hupdate
  governed := h.governed.update hupdate
  lockedPc := by
    obtain ⟨locked, hlocked⟩ := Option.isSome_iff_exists.mp h.lockedPc
    obtain ⟨locked', hlocked', -⟩ := lockedPc_update hlocked hupdate
    exact Option.isSome_iff_exists.mpr ⟨locked', hlocked'⟩
  highestPc := by
    obtain ⟨highest, hhighest, hnew⟩ := highestPc_update hupdate
    obtain ⟨pc, hpc, hpcBounded⟩ := h.highestPc
    obtain rfl := Option.some.inj (hhighest.symm.trans hpc)
    by_cases hlt : highest.view < justify.view
    · rw [if_pos hlt] at hnew
      refine ⟨justify, hnew, ?_⟩
      rcases Store.cases_of_write s hnew with hset | ⟨-, hold⟩
      · exact hbounded hset
      · obtain rfl := Option.some.inj (hpc.symm.trans hold)
        exact hpcBounded
    · rw [if_neg hlt] at hnew
      exact ⟨highest, hnew, hpcBounded⟩
  entered := by
    rw [write_update_of_isProgress hupdate rfl (by simp) (by simp)]
    exact h.entered

theorem note {v : Var} {x : v.Val} (hv : Protocol.IsNote v) :
    Sturdy cr blocks good (s.write [.set v x]) := by
  have hkept : ∀ v' : Var, ¬Protocol.IsNote v' → s.write [.set v x] v' = s v' :=
    fun _ hv' => Protocol.write_note hv hv'
  constructor
  · exact h.wf.congr fun _ _ => Protocol.block_note hv
  · refine h.holding.congr fun v' b hv' => Protocol.block_note hv (b := b) ?_
    rcases hv' with rfl | rfl <;> rfl
  · exact h.governed.note hv
  · rw [hkept _ (by simp [Protocol.IsNote])]
    exact h.lockedPc
  · rw [hkept _ (by simp [Protocol.IsNote])]
    exact h.highestPc
  · by_cases hsame : v = .highestViewEntered
    · subst hsame
      exact Option.isSome_iff_exists.mpr ⟨x, Store.apply_set s .highestViewEntered x⟩
    · have hne : s.write [.set v x] .highestViewEntered = s .highestViewEntered :=
        Store.apply_of_ne s (Ne.symm hsame)
      rw [hne]
      exact h.entered

theorem numbers (hadmissible : Admissible cr blocks) : s.BoundedNumbers where
  blocks b := h.holding.boundedAt hadmissible h.wf b
  highestPc pc hpc := by
    obtain ⟨pc', hpc', hbounded⟩ := h.highestPc
    obtain rfl := Option.some.inj (hpc.symm.trans hpc')
    exact hbounded

/-! ## What does not fail -/

theorem safePc (pc : PhaseCertificate) (chainId : ChainID) :
    ∃ safe, s.safePc pc chainId = .ok safe := by
  obtain ⟨locked, hlocked⟩ := Option.isSome_iff_exists.mp h.lockedPc
  obtain ⟨near, hnear⟩ : ∃ near, s.extendsLockedPcBlock pc = .ok near := by
    obtain ⟨near, hnear, -⟩ := extendsLockedPcBlock_eq_ok hlocked
    exact ⟨near, hnear⟩
  unfold BlockTree.safePc
  rw [kv_lockedPc_eq_ok.mpr hlocked, hnear, kv_validatorSetUpdatesStatus]
  simp only [Result.ok_bind]
  split
  · exact ⟨_, rfl⟩
  split
  · exact ⟨_, rfl⟩
  by_cases hview : locked.view < pc.view
  · rw [if_pos hview]
    exact ⟨_, rfl⟩
  · rw [if_neg hview]
    cases near with
    | false => exact ⟨_, rfl⟩
    | true => exact ⟨_, rfl⟩

theorem safeBlock (block : Block) (chainId : ChainID) :
    ∃ safe, s.safeBlock block chainId = .ok safe := by
  obtain ⟨safe, hsafe⟩ := h.safePc block.justify chainId
  unfold BlockTree.safeBlock
  rw [hsafe, Result.ok_bind]
  cases safe with
  | false => exact ⟨_, rfl⟩
  | true => exact ⟨_, rfl⟩

/-- The view before the current one is computed, which view 0 does not have. -/
theorem safeNudge (nudge : Nudge) {view : ViewNumber} (hview : view ≠ 0) (chainId : ChainID) :
    ∃ safe, s.safeNudge nudge view chainId = .ok safe := by
  obtain ⟨safe, hsafe⟩ := h.safePc nudge.justify chainId
  obtain ⟨previous, hprevious⟩ : ∃ previous, U64.sub view 1 = .ok previous := by
    apply U64.exists_sub_of_le
    rw [Fin.le_def]
    show 1 ≤ view.val
    have hne : view.val ≠ 0 := fun hzero => hview (Fin.ext hzero)
    omega
  unfold BlockTree.safeNudge
  rw [hsafe, Result.ok_bind, hprevious]
  cases safe with
  | false => exact ⟨_, rfl⟩
  | true =>
    simp only [Result.ok_bind]
    split
    · exact ⟨_, rfl⟩
    split
    · exact ⟨_, rfl⟩
    split
    · exact ⟨_, rfl⟩
    · exact ⟨_, rfl⟩

theorem isCorrect (husable : UsableSets apps good) (hadmissible : Admissible cr blocks)
    (hblock : block ∈ blocks) : ∃ correct, block.isCorrect cr s = .ok correct := by
  obtain ⟨bytes, hbytes⟩ := hadmissible.hashable block hblock
  unfold Block.isCorrect
  rw [Block.hashOf_eq_ok.mpr ⟨bytes, hbytes, rfl⟩, Result.ok_bind]
  split
  · exact h.governed.isCorrect husable.bounded cr block.justify
  · exact ⟨_, rfl⟩

/-- What a safe certificate is about is in the tree. -/
theorem stored_of_safePc {chainId : ChainID} (hsafe : s.safePc justify chainId = .ok true)
    (hgenesis : ¬justify.isGenesisPc = true) : s.Stored justify.block := by
  obtain ⟨-, hknown, -⟩ := safePc_cases hsafe
  refine h.wf.contains_iff.mp (hknown.resolve_right fun heq => hgenesis ?_)
  rw [heq]
  rfl

theorem exists_justify {b : CryptoHash} (hb : s.Stored b) : ∃ j, s.kv.blockJustify b = .ok j ∧
    (¬j.isGenesisPc = true → s.Stored j.block) := by
  obtain ⟨j, hj⟩ := Option.isSome_iff_exists.mp hb
  refine ⟨j, kv_blockJustify_eq_ok.mpr hj, fun hgenesis => ?_⟩
  refine (h.wf.parent b j hj).resolve_left fun heq => hgenesis ?_
  rw [heq]
  rfl

theorem pcToLock (hstored : ¬justify.isGenesisPc = true → s.Stored justify.block) :
    ∃ new, s.pcToLock justify = .ok new := by
  obtain ⟨locked, hlocked⟩ := Option.isSome_iff_exists.mp h.lockedPc
  unfold BlockTree.pcToLock
  by_cases hgenesis : justify.isGenesisPc = true
  · rw [if_pos hgenesis]
    exact ⟨_, rfl⟩
  · rw [if_neg hgenesis, kv_lockedPc_eq_ok.mpr hlocked, Result.ok_bind]
    cases justify.phase with
    | generic =>
      obtain ⟨j, hj, -⟩ := h.exists_justify (hstored hgenesis)
      simp only [hj, Result.ok_bind]
      exact ⟨_, rfl⟩
    | prepare | precommit | commit | decide => exact ⟨_, rfl⟩

theorem notCommittedYet {b : CryptoHash} (hb : s.Stored b) : ∃ yet, s.notCommittedYet b = .ok yet := by
  obtain ⟨height, hheight⟩ := h.wf.exists_height hb
  unfold BlockTree.notCommittedYet
  rw [kv_blockHeight, hheight, Result.ok_bind, kv_highestCommittedBlockHeight]
  exact ⟨_, rfl⟩

theorem blockToCommit (hadmissible : Admissible cr blocks)
    (hstored : ¬justify.isGenesisPc = true → s.Stored justify.block) :
    ∃ target, s.blockToCommit justify = .ok target := by
  have hnext : ∀ {b j}, s.kv.blockJustify b = .ok j → ∃ next, U64.add j.view 1 = .ok next :=
    fun hj => U64.exists_add_one_iff.mpr
      (((h.numbers hadmissible).blocks _).justify _ (kv_blockJustify_eq_ok.mp hj))
  unfold BlockTree.blockToCommit
  by_cases hgenesis : justify.isGenesisPc = true
  · rw [if_pos hgenesis]
    exact ⟨_, rfl⟩
  rw [if_neg hgenesis]
  have hstored := hstored hgenesis
  cases justify.phase with
  | generic =>
    obtain ⟨parentJustify, hparent, hstoredParent⟩ := h.exists_justify hstored
    simp only [hparent, Result.ok_bind]
    by_cases hgenesis' : parentJustify.isGenesisPc = true
    · rw [if_pos hgenesis']
      exact ⟨_, rfl⟩
    obtain ⟨grandparentJustify, hgrandparent, hstoredGrandparent⟩ :=
      h.exists_justify (hstoredParent hgenesis')
    rw [if_neg hgenesis', hgrandparent, Result.ok_bind]
    by_cases hgenesis'' : grandparentJustify.isGenesisPc = true
    · rw [if_pos hgenesis'']
      exact ⟨_, rfl⟩
    obtain ⟨afterParent, hafterParent⟩ := hnext hparent
    obtain ⟨afterGrandparent, hafterGrandparent⟩ := hnext hgrandparent
    obtain ⟨yet, hyet⟩ := h.notCommittedYet (hstoredGrandparent hgenesis'')
    rw [if_neg hgenesis'', hafterParent, Result.ok_bind, hafterGrandparent, hyet]
    by_cases hview : justify.view = afterParent
    · rw [if_pos hview]
      exact ⟨_, rfl⟩
    · rw [if_neg hview]
      exact ⟨_, rfl⟩
  | prepare | precommit => exact ⟨_, rfl⟩
  | commit | decide =>
    obtain ⟨yet, hyet⟩ := h.notCommittedYet hstored
    simp only [hyet, Result.ok_bind]
    exact ⟨_, rfl⟩

/-- With enough fuel, acting upon a certificate about a stored block succeeds. -/
theorem updateBatch (hadmissible : Admissible cr blocks)
    (hstored : ¬justify.isGenesisPc = true → s.Stored justify.block) :
    ∃ result, Eventually (fun fuel => s.updateBatch fuel justify) result := by
  obtain ⟨highest, hhighest, -⟩ := h.highestPc
  obtain ⟨new, hnew⟩ := h.pcToLock hstored
  obtain ⟨target, htarget⟩ := h.blockToCommit hadmissible hstored
  unfold BlockTree.updateBatch
  simp only [kv_highestPc_eq_ok.mpr hhighest, hnew, htarget, Result.ok_bind]
  cases target with
  | none => exact ⟨_, .const rfl⟩
  | some target =>
    obtain ⟨vs, hvs, -⟩ := h.governed.committed
    obtain ⟨committed, hcommitted⟩ := exists_eventually_commit h.wf
      (Option.isSome_iff_exists.mpr ⟨vs, hvs⟩) (stored_of_blockToCommit h.wf htarget)
    exact ⟨_, hcommitted.map _⟩

/-- There is a view of the app state of every stored block. -/
theorem appView {parent : Option CryptoHash} (hparent : ∀ b ∈ parent, s.Stored b) :
    ∃ view, Eventually (fun fuel => s.appView fuel parent) view := by
  cases parent with
  | none =>
    refine ⟨⟨s, []⟩, 0, fun fuel _ => ?_⟩
    show BlockTree.appView s fuel none = .ok ⟨s, []⟩
    unfold BlockTree.appView
    rw [kv_highestCommittedBlockHeight, Result.ok_bind]
    cases fuel <;> rfl
  | some b =>
    obtain ⟨us, walk⟩ := exists_walk h.wf s.committedHeight (hparent b rfl)
    refine ⟨_, appView_of_walk walk fun x hx => ?_⟩
    refine h.wf.exists_height (walk.stored_of_mem h.wf ?_ hx)
    intro b' hb'
    obtain rfl := Option.some.inj hb'
    exact hparent _ rfl

/-- So there is one of the app state before every safe block. -/
theorem appView_of_safeBlock {chainId : ChainID} (hsafe : s.safeBlock block chainId = .ok true) :
    ∃ view, Eventually (fun fuel => s.appView fuel
      (if block.justify.isGenesisPc then none else some block.justify.block)) view := by
  refine h.appView fun b hb => ?_
  split at hb
  · cases hb
  · rename_i hgenesis
    obtain rfl := Option.some.inj hb
    exact h.stored_of_safePc (safePc_of_safeBlock hsafe).1 hgenesis

end Sturdy

end BlockTree

namespace Protocol

open BlockTree Lts

variable {cr : Crypto} {config : Configuration} {apps : App → Prop} {good : ValidatorSet → Prop}
  {blocks : Set Block}

/-- `log` inserts blocks of `blocks` only, and the views of the highest PCs that it sets can be
added to. -/
structure Manages (s₀ : BlockTree) (blocks : Set Block) (log : List Event) : Prop where
  inserted : Inserted s₀ (fun _ block _ => block ∈ blocks) log
  raised : ∀ pc, Raises log pc → pc.Bounded

theorem Manages.of_prefix {s₀ : BlockTree} {log log' : List Event} (h : Manages s₀ blocks log)
    (hlog : log' <+: log) : Manages s₀ blocks log' where
  inserted := h.inserted.of_prefix hlog
  raised := by
    rintro pc ⟨wb, hwb, hset⟩
    exact h.raised pc ⟨wb, hlog.subset hwb, hset⟩

/-- No step of a replica that inserts admissible blocks leads to a tree in which something is
missing. -/
theorem sturdy_of_treePath {s t : BlockTree} {log : List Event}
    (path : Path (TreeStep cr config apps) s log t) (hs : Sturdy cr blocks good s)
    (husable : UsableSets apps good) (hadmissible : Admissible cr blocks)
    (hmanages : Manages s blocks log) : Sturdy cr blocks good t := by
  induction path with
  | nil => exact hs
  | @snoc log t e u path last ih =>
    have ht : t = s.replay log := treePath_tree path
    have hsturdy := ih (hmanages.of_prefix (List.prefix_append ..))
    cases last with
    | act => exact hsturdy
    | crash => exact hsturdy
    | @insert block appStateUpdates validatorSetUpdates app hcorrect hsafe happ hvalid =>
      refine hsturdy.insert hadmissible ?_ hcorrect hsafe fun updates hupdates => ?_
      · subst ht
        exact hmanages.inserted log block appStateUpdates validatorSetUpdates List.prefix_rfl
      · obtain rfl := hupdates
        exact husable.updates app happ _ _ _ hvalid
    | update hupdate =>
      exact hsturdy.update hupdate fun hset => hmanages.raised _ ⟨_, by simp, hset⟩
    | note hv => exact hsturdy.note hv

end Protocol
end HotStuffRs
