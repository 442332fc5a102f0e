import HotStuffRs.Chained.Voting
import HotStuffRs.Replica.FixedValidators
import HotStuffRs.Replica.Lock

/-
The votes of a replica keep to its lock.

In the pipelined mode a replica votes for a block after it has acted upon the justify of that
block, so it is locked by then on the certificate two links below.  If it never gives up a lock,
each later vote is for a block that is safe with regard to that lock or one that is held after it.
-/

namespace HotStuffRs

open Kv Lts

/-- The certificates of a network whose validators are `vs`, where `justifyOf` gives the justify
of each block. -/
def certificates (cr : Crypto) (vs : ValidatorSet)
    (justifyOf : CryptoHash → Option PhaseCertificate) :
    Chained.Certificates CryptoHash PhaseCertificate where
  view pc := pc.view.val
  block := PhaseCertificate.block
  Valid pc := pc.isCorrectlySigned cr vs = .ok true
  justify := justifyOf

/-- A replica that is locked on `locked` has not given up the lock on `k`. -/
def PhaseCertificate.HeldBy (k locked : PhaseCertificate) : Prop :=
  k = .genesisPc ∨ k.view < locked.view ∨ (k.view = locked.view ∧ k.block = locked.block)

theorem PhaseCertificate.HeldBy.view_le {k locked : PhaseCertificate} (h : k.HeldBy locked) :
    k.view ≤ locked.view := by
  rcases h with rfl | hlt | ⟨hview, -⟩
  · exact Fin.zero_le _
  · exact hlt.le
  · exact hview.le

theorem PhaseCertificate.HeldBy.trans {k locked locked' : PhaseCertificate} (h : k.HeldBy locked)
    (h' : locked.HeldBy locked') (hroot : k.view = 0 → k.block = 0 → k = .genesisPc) :
    k.HeldBy locked' := by
  rcases h with hgenesis | hlt | ⟨hview, hblock⟩
  · exact .inl hgenesis
  · rcases h' with rfl | hlt' | ⟨hview', -⟩
    · exact absurd hlt (Fin.not_lt_zero _)
    · exact .inr (.inl (hlt.trans hlt'))
    · exact .inr (.inl (hview' ▸ hlt))
  · rcases h' with rfl | hlt' | ⟨hview', hblock'⟩
    · exact .inl (hroot hview hblock)
    · exact .inr (.inl (hview ▸ hlt'))
    · exact .inr (.inr ⟨hview.trans hview', hblock.trans hblock'⟩)

namespace BlockTree

open Forest

/-- From `s` to `s'` the lock goes neither back to an earlier view nor over to another block of
the same view. -/
def HoldsLock (s s' : BlockTree) : Prop :=
  ∃ locked locked', s .lockedPc = some locked ∧ s' .lockedPc = some locked' ∧
    locked.HeldBy locked'

/-- The blocks of `s` have the justifies that `justifyOf` gives to them, each signed by a quorum
of `vs`, and proper heights. -/
structure Settled (cr : Crypto) (vs : ValidatorSet)
    (justifyOf : CryptoHash → Option PhaseCertificate) (s : BlockTree) : Prop extends
    Fixed vs s where
  wf : s.WellFormed
  heights : s.HeightsCount
  justify : ∀ b j, s (.blockJustify b) = some j → justifyOf b = some j
  signed : ∀ b j, s (.blockJustify b) = some j →
    j = .genesisPc ∨ j.isCorrectlySigned cr vs = .ok true

variable {cr : Crypto} {vs : ValidatorSet} {justifyOf : CryptoHash → Option PhaseCertificate}
  {s : BlockTree} {b a : CryptoHash}

theorem NearLocked.extends {locked : PhaseCertificate} (h : NearLocked s locked b) :
    Extends s.up b locked.block := by
  rcases h with rfl | hparent | ⟨parent, hparent, hgrandparent⟩
  · exact .refl _
  · exact .parent hparent
  · exact .of_parent hparent (.parent hgrandparent)

namespace Settled

theorem initial {appState : AppStateUpdates} {vss : ValidatorSetState}
    (hheight : vss.updateHeight = none) :
    Settled cr vss.committedValidatorSet justifyOf (BlockTree.initial appState vss) where
  toFixed := .initial hheight
  wf := wellFormed_initial
  heights := heightsCount_initial
  justify b j hj := by cases (initial_of_block? rfl).symm.trans hj
  signed b j hj := by cases (initial_of_block? rfl).symm.trans hj

variable (h : Settled cr vs justifyOf s)
include h

theorem insert {block : Block} {appStateUpdates : Option AppStateUpdates} {chainId : ChainID}
    (hcorrect : block.isCorrect cr s = .ok true) (hsafe : s.safeBlock block chainId = .ok true)
    (habove : s.InsertedAbove block) (hj : justifyOf block.hash = some block.justify) :
    Settled cr vs justifyOf (s.insert block appStateUpdates none) := by
  have hparent := h.wf.parent_of_safeBlock hsafe
  refine ⟨h.toFixed.insert, h.wf.insert habove.fresh.hash hparent fun j hj =>
    (habove.fresh.same j hj).1, h.heights.insert h.wf habove.fresh hparent habove.height,
    fun b j hb => ?_, fun b j hb => ?_⟩
  all_goals
    by_cases hhash : b = block.hash
    · subst hhash
      rw [justify_insert, Option.some.injEq] at hb
      subst hb
      first | exact hj | exact h.signed_of_isCorrect (justify_isCorrect hcorrect)
    · rw [field_insert_of_ne rfl rfl hhash] at hb
      first | exact h.justify b j hb | exact h.signed b j hb

theorem update {justify : PhaseCertificate} {fuel : Nat} {wb : WriteBatch}
    {updates : Option ValidatorSetUpdates}
    (hupdate : s.updateBatch fuel justify = .ok (wb, updates)) :
    Settled cr vs justifyOf (s.write wb) := by
  have hkept : ∀ b j, s.write wb (.blockJustify b) = some j → s (.blockJustify b) = some j := by
    intro b j hb
    rcases field_write_update hupdate (v := .blockJustify b) rfl with heq | hgone
    · rwa [← heq]
    · cases hgone.symm.trans hb
  exact ⟨h.toFixed.update h.wf hupdate, h.wf.update hupdate, h.heights.update h.wf hupdate,
    fun b j hb => h.justify b j (hkept b j hb), fun b j hb => h.signed b j (hkept b j hb)⟩

theorem note {v : Var} {x : v.Val} (hv : Protocol.IsNote v) :
    Settled cr vs justifyOf (s.write [.set v x]) where
  toFixed := h.toFixed.note hv
  wf := h.wf.congr fun _ _ => Protocol.block_note hv
  heights := h.heights.congr fun _ _ => Protocol.block_note hv
  justify b j hb := h.justify b j ((Protocol.block_note hv rfl).symm.trans hb)
  signed b j hb := h.signed b j ((Protocol.block_note hv rfl).symm.trans hb)

/-! ## The forest of a tree in that of the network -/

theorem up_eq_some {p : CryptoHash} (hp : s.up b = some p) :
    (certificates cr vs justifyOf).up b = some p := by
  obtain ⟨j, hj, rfl⟩ := BlockTree.up_eq_some.mp hp
  exact Chained.Certificates.up_eq_some.mpr ⟨j, h.justify b j hj, rfl⟩

theorem extends_of_extends (hext : Extends s.up b a) :
    Extends (certificates cr vs justifyOf).up b a :=
  hext.mono fun _ _ => h.up_eq_some

/-- All blocks descend from the genesis placeholder. -/
theorem extends_genesis (hb : s.Stored b) : Extends s.up b 0 := by
  induction b using h.wf.acyclic.induction with
  | _ b ih =>
    obtain ⟨j, hj⟩ := Option.isSome_iff_exists.mp hb
    have hup : s.up b = some j.block := BlockTree.up_eq_some.mpr ⟨j, hj, rfl⟩
    rcases h.wf.parent b j hj with rfl | hparent
    · exact .parent hup
    · exact .of_parent hup (ih j.block hup hparent)

/-- What a stored block descends from in the network it descends from in the tree. -/
theorem extends_of_stored (hroot : justifyOf 0 = none) (hb : s.Stored b)
    (hext : Extends (certificates cr vs justifyOf).up b a) : Extends s.up b a := by
  induction hext using Relation.ReflTransGen.head_induction_on with
  | refl => exact .refl _
  | @head b p hbp hpa ih =>
    obtain ⟨j, hj⟩ := Option.isSome_iff_exists.mp hb
    obtain ⟨j', hj', rfl⟩ := Chained.Certificates.up_eq_some.mp hbp
    obtain rfl : j = j' := Option.some.inj ((h.justify b j hj).symm.trans hj')
    have hup : s.up b = some j.block := BlockTree.up_eq_some.mpr ⟨j, hj, rfl⟩
    rcases h.wf.parent b j hj with rfl | hparent
    · rcases Extends.iff_parent.mp hpa with rfl | ⟨q, hq, -⟩
      · exact .parent hup
      · obtain ⟨k, hk, -⟩ := Chained.Certificates.up_eq_some.mp hq
        cases hroot.symm.trans hk
    · exact .of_parent hup (ih hparent)

/-- The block to commit upon a certificate is final, and the certificate in the middle is the
justify of the block that was certified last. -/
theorem threeChain_of_blockToCommit {justify : PhaseCertificate} {target : CryptoHash}
    (hjustify : justify = .genesisPc ∨ justify.isCorrectlySigned cr vs = .ok true)
    (hphase : justify.phase = .generic) (htarget : s.blockToCommit justify = .ok (some target)) :
    ∃ q q', (certificates cr vs justifyOf).ThreeChain q q' justify ∧ q.block = target ∧
      s (.blockJustify justify.block) = some q' ∧ justify ≠ .genesisPc := by
  obtain ⟨parentJustify, grandparentJustify, hparent, hgrandparent, hne, hne', hne'', rfl, hview,
    hview'⟩ := views_of_blockToCommit hphase htarget
  exact ⟨grandparentJustify, parentJustify,
    ⟨(h.signed _ _ hgrandparent).resolve_left hne'', (h.signed _ _ hparent).resolve_left hne',
      hjustify.resolve_left hne, h.justify _ _ hgrandparent, h.justify _ _ hparent, hview'.symm,
      hview.symm⟩, rfl, hparent, hne⟩

/-- A safe block keeps to the lock, and to those that it holds. -/
theorem keepsTo_of_safeBlock {block : Block} {chainId : ChainID} {locked k : PhaseCertificate}
    (hj : justifyOf block.hash = some block.justify)
    (hcorrect : block.isCorrect cr s = .ok true) (hsafe : s.safeBlock block chainId = .ok true)
    (hlocked : s .lockedPc = some locked)
    (hsigned : locked = .genesisPc ∨ locked.isCorrectlySigned cr vs = .ok true)
    (hheld : k.HeldBy locked) : (certificates cr vs justifyOf).KeepsTo k block.hash := by
  have hup : (certificates cr vs justifyOf).up block.hash = some block.justify.block :=
    Chained.Certificates.up_eq_some.mpr ⟨_, hj, rfl⟩
  have hlater : ∀ {pc : PhaseCertificate},
      pc = .genesisPc ∨ pc.isCorrectlySigned cr vs = .ok true → k.view < pc.view →
      pc.isCorrectlySigned cr vs = .ok true := by
    rintro pc (rfl | hpc) hlt
    · exact absurd hlt (Fin.not_lt_zero _)
    · exact hpc
  refine ⟨_, hup, ?_⟩
  obtain ⟨-, -, hrule, -⟩ := (safePc_iff hlocked).mp (safePc_of_safeBlock hsafe).1
  rcases hheld with rfl | hheld
  · rcases h.wf.parent_of_safeBlock hsafe with hgenesis | hparent
    · rw [hgenesis]
      exact .inl (.refl _)
    · exact .inl (h.extends_of_extends (h.extends_genesis hparent))
  · have hle : k.view ≤ locked.view := PhaseCertificate.HeldBy.view_le (.inr hheld)
    rcases hrule with hview | hnear
    · have hlt : k.view < block.justify.view := hle.trans_lt hview
      have hvalid := hlater (h.signed_of_isCorrect (justify_isCorrect hcorrect)) hlt
      exact .inr ⟨block.justify, hvalid, hlt, .refl _⟩
    · have hext : Extends (certificates cr vs justifyOf).up block.justify.block locked.block :=
        h.extends_of_extends hnear.extends
      rcases hheld with hlt | ⟨-, hblock⟩
      · exact .inr ⟨locked, hlater hsigned hlt, hlt, hext⟩
      · rw [← hblock] at hext
        exact .inl hext

end Settled

end BlockTree

namespace Protocol

open BlockTree

variable {cr : Crypto} {config : Configuration} {apps : App → Prop} {vs : ValidatorSet}
  {justifyOf : CryptoHash → Option PhaseCertificate} {s₀ s s' : BlockTree} {log : List Event}
  {e : Event} {v v' : ViewNumber} {st st' : Stage}

/-! ## One replica -/

/-- `log` inserts `block`, after it was found correct and safe. -/
def Inserts (cr : Crypto) (config : Configuration) (s₀ : BlockTree) (log : List Event)
    (block : Block) : Prop :=
  ∃ before appStateUpdates validatorSetUpdates,
    before ++ [.effect (.write ((s₀.replay before).insertBatch block appStateUpdates
      validatorSetUpdates))] <+: log ∧
    block.isCorrect cr (s₀.replay before) = .ok true ∧
    (s₀.replay before).safeBlock block config.chainId = .ok true

/-- The justifies of the blocks that `log` inserts are those that `justifyOf` gives. -/
structure Justifies (cr : Crypto) (config : Configuration)
    (justifyOf : CryptoHash → Option PhaseCertificate) (s₀ : BlockTree) (log : List Event) :
    Prop where
  inserted : ∀ block, Inserts cr config s₀ log block → justifyOf block.hash = some block.justify
  root : justifyOf 0 = none
  genesis : ∀ b j, justifyOf b = some j → j.block = 0 → j = .genesisPc

theorem Inserts.mono {log' : List Event} {block : Block} (h : Inserts cr config s₀ log block)
    (hlog : log <+: log') : Inserts cr config s₀ log' block := by
  obtain ⟨before, appStateUpdates, validatorSetUpdates, hbefore, hchecked⟩ := h
  exact ⟨before, appStateUpdates, validatorSetUpdates, hbefore.trans hlog, hchecked⟩

theorem Justifies.of_prefix {log' : List Event} (h : Justifies cr config justifyOf s₀ log')
    (hlog : log <+: log') : Justifies cr config justifyOf s₀ log :=
  ⟨fun block hblock => h.inserted block (hblock.mono hlog), h.root, h.genesis⟩

theorem settled_of_path {appState : AppStateUpdates} {vss : ValidatorSetState}
    (path : Path (TreeStep cr config apps) (initial appState vss) log s)
    (hfixed : FixedValidators apps) (hheight : vss.updateHeight = none)
    (hinserted : Inserted (initial appState vss) (fun s block _ => s.InsertedAbove block) log)
    (hjustify : Justifies cr config justifyOf (initial appState vss) log) :
    Settled cr vss.committedValidatorSet justifyOf s := by
  refine treePath_invariant (P := fun s block _ => s.InsertedAbove block ∧
    (block.isCorrect cr s = .ok true → s.safeBlock block config.chainId = .ok true →
      justifyOf block.hash = some block.justify)) path ?_ (.initial hheight) ?_ ?_ ?_
  · intro before block appStateUpdates validatorSetUpdates hbefore
    exact ⟨hinserted before block appStateUpdates validatorSetUpdates hbefore,
      fun hcorrect hsafe => hjustify.inserted block
        ⟨before, appStateUpdates, validatorSetUpdates, hbefore, hcorrect, hsafe⟩⟩
  · intro s block appStateUpdates validatorSetUpdates app hs hcorrect hsafe happ hvalid hblock
    obtain rfl := hfixed app happ block _ _ hvalid
    exact hs.insert hcorrect hsafe hblock.1 (hblock.2 hcorrect hsafe)
  · exact fun hs hupdate => hs.update hupdate
  · exact fun hs hv => hs.note hv

/-- In `s` a replica has not given up the lock that comes with a vote for `b`. -/
def HoldsLockOf (justifyOf : CryptoHash → Option PhaseCertificate) (s : BlockTree)
    (b : CryptoHash) : Prop :=
  ∀ j k locked, justifyOf b = some j → justifyOf j.block = some k → s .lockedPc = some locked →
    k.HeldBy locked

/-- `b` was committed upon three certificates in a row.  The replica still holds the middle one,
and its highest PC is not behind the last. -/
def Decided (cr : Crypto) (vs : ValidatorSet) (justifyOf : CryptoHash → Option PhaseCertificate)
    (s : BlockTree) (b : CryptoHash) : Prop :=
  ∃ q q' q'', (certificates cr vs justifyOf).ThreeChain q q' q'' ∧ q.block = b ∧
    (∀ locked, s .lockedPc = some locked → q'.HeldBy locked) ∧
    ∀ highest, s .highestPc = some highest → q''.view ≤ highest.view

/-- What is known of the block of the stage. -/
def StageLocked (cr : Crypto) (vs : ValidatorSet) (justifyOf : CryptoHash → Option PhaseCertificate)
    (votes : List PhaseVote) (s : BlockTree) : Stage → Prop
  | .inserted block _ => block.justify.phase = .generic ∧
      (block.justify = .genesisPc ∨ block.justify.isCorrectlySigned cr vs = .ok true) ∧
      justifyOf block.hash = some block.justify ∧
      ∀ vote ∈ votes, (certificates cr vs justifyOf).Binds vote.block block.hash
  | .mayVote _ block _ => HoldsLockOf justifyOf s block ∧
      ∀ vote ∈ votes, (certificates cr vs justifyOf).Binds vote.block block
  | .idle | .voted => True

/-- What a replica that never gives up its lock knows of the votes that it has sent. -/
structure VotesLocked (cr : Crypto) (vs : ValidatorSet)
    (justifyOf : CryptoHash → Option PhaseCertificate) (log : List Event) (s : BlockTree)
    (st : Stage) : Prop where
  signed : ∀ pc, KeepsPc s pc → pc = .genesisPc ∨ pc.isCorrectlySigned cr vs = .ok true
  held : ∀ vote ∈ phaseVotes log, HoldsLockOf justifyOf s vote.block
  stage : StageLocked cr vs justifyOf (phaseVotes log) s st
  bound : (phaseVotes log).Pairwise fun vote vote' =>
    (certificates cr vs justifyOf).Binds vote.block vote'.block
  decided : ∀ b, s .highestCommittedBlock = some b → Decided cr vs justifyOf s b

theorem Decided.final {b : CryptoHash} (h : Decided cr vs justifyOf s b) :
    (certificates cr vs justifyOf).Final b := by
  obtain ⟨q, q', q'', hchain, rfl, -⟩ := h
  exact ⟨q, q', q'', hchain, rfl⟩

/-- The highest PC does not fall behind. -/
def RaisesHighestPc (s s' : BlockTree) : Prop :=
  ∀ pc', s' .highestPc = some pc' → ∃ pc, s .highestPc = some pc ∧ pc.view ≤ pc'.view

theorem Decided.trans {b : CryptoHash} (h : Decided cr vs justifyOf s b) (hholds : HoldsLock s s')
    (hraises : RaisesHighestPc s s') : Decided cr vs justifyOf s' b := by
  obtain ⟨q, q', q'', hchain, hb, hheld, hhighest⟩ := h
  obtain ⟨locked, locked', hlocked, hlocked', hholds⟩ := hholds
  refine ⟨q, q', q'', hchain, hb, fun pc hpc => ?_, fun pc' hpc' => ?_⟩
  · obtain rfl := Option.some.inj (hlocked'.symm.trans hpc)
    refine (hheld locked hlocked).trans hholds fun hzero => ?_
    have hview : q'.view.val = q.view.val + 1 := hchain.view
    rw [hzero] at hview
    cases hview
  · obtain ⟨pc, hpc, hle⟩ := hraises pc' hpc'
    exact (hhighest pc hpc).trans hle

theorem raisesHighestPc_of_eq (h : s' .highestPc = s .highestPc) : RaisesHighestPc s s' :=
  fun pc' hpc' => ⟨pc', h.symm.trans hpc', le_rfl⟩

theorem HoldsLockOf.trans {b : CryptoHash} (h : HoldsLockOf justifyOf s b)
    (hholds : HoldsLock s s')
    (hgenesis : ∀ b j, justifyOf b = some j → j.block = 0 → j = .genesisPc) :
    HoldsLockOf justifyOf s' b := by
  obtain ⟨locked, locked', hlocked, hlocked', hheld⟩ := hholds
  intro j k pc hj hk hpc
  obtain rfl := Option.some.inj (hlocked'.symm.trans hpc)
  exact (h j k locked hj hk hlocked).trans hheld fun _ => hgenesis _ k hk

/-- In the pipelined mode a replica locks the justify of the block that was certified. -/
theorem lockedPc_of_generic {justify locked : PhaseCertificate} {fuel : Nat} {wb : WriteBatch}
    {updates : Option ValidatorSetUpdates} (hupdate : s.updateBatch fuel justify = .ok (wb, updates))
    (hphase : justify.phase = .generic) (hne : justify ≠ .genesisPc)
    (hlocked : s .lockedPc = some locked) :
    ∃ parentJustify, s (.blockJustify justify.block) = some parentJustify ∧
      s.write wb .lockedPc = some parentJustify := by
  obtain ⟨locked', hlocked', hnext⟩ := lockedPc_update hlocked hupdate
  have hother : ∀ {phase : Phase}, justify.phase = phase → phase = .generic := by
    rintro phase rfl
    exact hphase
  cases hnext with
  | genesis hgenesis => exact absurd hgenesis hne
  | generic _ _ hparent => exact ⟨_, hparent, hlocked'⟩
  | prepare hphase' => cases hother hphase'
  | precommit hphase' => cases hother hphase'
  | same hphase' _ => rcases hphase' with hphase' | hphase' <;> cases hother hphase'
  | other hphase' _ => rcases hphase' with hphase' | hphase' <;> cases hother hphase'

/-- After acting upon the justify of `block`, the lock is the certificate two links below it. -/
theorem holdsLockOf_update (hsettled : Settled cr vs justifyOf s) {block : CryptoHash}
    {justify : PhaseCertificate} {fuel : Nat} {wb : WriteBatch}
    {updates : Option ValidatorSetUpdates} {locked : PhaseCertificate}
    (hupdate : s.updateBatch fuel justify = .ok (wb, updates)) (hphase : justify.phase = .generic)
    (hroot : justifyOf 0 = none) (hj : justifyOf block = some justify)
    (hlocked : s .lockedPc = some locked) : HoldsLockOf justifyOf (s.write wb) block := by
  intro j k pc hj' hk hpc
  obtain rfl := Option.some.inj (hj.symm.trans hj')
  have hne : justify ≠ .genesisPc := by
    rintro rfl
    cases hroot.symm.trans hk
  obtain ⟨parentJustify, hparent, hlocked'⟩ := lockedPc_of_generic hupdate hphase hne hlocked
  obtain rfl := Option.some.inj (hlocked'.symm.trans hpc)
  obtain rfl := Option.some.inj ((hsettled.justify _ _ hparent).symm.trans hk)
  exact .inr (.inr ⟨rfl, rfl⟩)

/-- What is committed upon `justify` is held, as `justify` is. -/
theorem decided_of_update (hsettled : Settled cr vs justifyOf s) {justify : PhaseCertificate}
    {fuel : Nat} {wb : WriteBatch} {updates : Option ValidatorSetUpdates} {target : CryptoHash}
    {locked : PhaseCertificate} (hlocked : s .lockedPc = some locked)
    (hupdate : s.updateBatch fuel justify = .ok (wb, updates)) (hphase : justify.phase = .generic)
    (hjustify : justify = .genesisPc ∨ justify.isCorrectlySigned cr vs = .ok true)
    (htarget : s.blockToCommit justify = .ok (some target)) :
    Decided cr vs justifyOf (s.write wb) target := by
  obtain ⟨q, q', hchain, hq, hparent, hne⟩ :=
    hsettled.threeChain_of_blockToCommit hjustify hphase htarget
  obtain ⟨highest, -, hnew⟩ := highestPc_update hupdate
  refine ⟨q, q', justify, hchain, hq, fun pc hpc => ?_, fun pc hpc => ?_⟩
  · obtain ⟨parentJustify, hparent', hlocked'⟩ := lockedPc_of_generic hupdate hphase hne hlocked
    obtain rfl := Option.some.inj (hparent.symm.trans hparent')
    obtain rfl := Option.some.inj (hlocked'.symm.trans hpc)
    exact .inr (.inr ⟨rfl, rfl⟩)
  · rw [hnew, Option.some.injEq] at hpc
    subst hpc
    split
    · exact le_rfl
    · rename_i hnot
      exact not_lt.mp hnot

namespace VotesLocked

theorem initial {appState : AppStateUpdates} {vss : ValidatorSetState} :
    VotesLocked cr vs justifyOf [] (BlockTree.initial appState vss) .idle where
  signed pc hpc := .inl (keepsPc_initial hpc)
  held := by simp [phaseVotes]
  stage := trivial
  bound := .nil
  decided b hb := by
    cases (initial_eq_none (by simp [initialOps]) (by simp) (by simp)).symm.trans hb

variable (h : VotesLocked cr vs justifyOf log s st)
  (hgenesis : ∀ b j, justifyOf b = some j → j.block = 0 → j = .genesisPc)
include h hgenesis

/-- The replica goes on without a vote. -/
theorem go (he : e.phaseVote? = none) (hholds : HoldsLock s s')
    (hsigned : ∀ pc, KeepsPc s' pc → pc = .genesisPc ∨ pc.isCorrectlySigned cr vs = .ok true)
    (hstage : StageLocked cr vs justifyOf (phaseVotes log) s' st')
    (hdecided : ∀ b, s' .highestCommittedBlock = some b → Decided cr vs justifyOf s' b) :
    VotesLocked cr vs justifyOf (log ++ [e]) s' st' := by
  rw [← phaseVotes_snoc_of_none he] at hstage
  refine ⟨hsigned, ?_, hstage, ?_, hdecided⟩
  · rw [phaseVotes_snoc_of_none he]
    exact fun vote hvote => (h.held vote hvote).trans hholds hgenesis
  · rw [phaseVotes_snoc_of_none he]
    exact h.bound

/-- What is committed and the highest PC stay as they are. -/
theorem keep (he : e.phaseVote? = none) (hholds : HoldsLock s s')
    (hsigned : ∀ pc, KeepsPc s' pc → pc = .genesisPc ∨ pc.isCorrectlySigned cr vs = .ok true)
    (hhighest : s' .highestPc = s .highestPc)
    (hcommitted : s' .highestCommittedBlock = s .highestCommittedBlock)
    (hstage : StageLocked cr vs justifyOf (phaseVotes log) s' st') :
    VotesLocked cr vs justifyOf (log ++ [e]) s' st' :=
  h.go hgenesis he hholds hsigned hstage fun b hb =>
    (h.decided b (hcommitted ▸ hb)).trans hholds (raisesHighestPc_of_eq hhighest)

theorem note {x : Var} {y : x.Val} (hx : IsNote x) (hholds : HoldsLock s (s.write [.set x y])) :
    VotesLocked cr vs justifyOf (log ++ [.effect (.write [.set x y])]) (s.write [.set x y]) .idle := by
  have hhighest : s.write [.set x y] .highestPc = s .highestPc := write_note hx (by simp [IsNote])
  refine h.keep hgenesis rfl hholds (fun pc hpc => h.signed pc ?_) hhighest
    (write_note hx (by simp [IsNote])) trivial
  exact hpc.congr hhighest (write_note hx (by simp [IsNote])) fun b => block_note hx rfl

/-- Acting upon a certificate that is signed. -/
theorem update (hsettled : Settled cr vs justifyOf s) {justify : PhaseCertificate} {fuel : Nat}
    {wb : WriteBatch} {updates : Option ValidatorSetUpdates}
    (hupdate : s.updateBatch fuel justify = .ok (wb, updates)) (hphase : justify.phase = .generic)
    (hjustify : justify = .genesisPc ∨ justify.isCorrectlySigned cr vs = .ok true)
    (hholds : HoldsLock s (s.write wb))
    (hstage : StageLocked cr vs justifyOf (phaseVotes log) (s.write wb) st') :
    VotesLocked cr vs justifyOf (log ++ [.effect (.write wb)]) (s.write wb) st' := by
  obtain ⟨locked, -, hlocked, -⟩ := id hholds
  obtain ⟨highest, hhighest, hnew⟩ := highestPc_update hupdate
  have hraises : RaisesHighestPc s (s.write wb) := by
    intro pc' hpc'
    refine ⟨highest, hhighest, ?_⟩
    rw [hnew, Option.some.injEq] at hpc'
    subst hpc'
    split
    · rename_i hlt
      exact hlt.le
    · exact le_rfl
  refine h.go hgenesis rfl hholds (fun pc hpc => ?_) hstage fun b hb => ?_
  · rcases keepsPc_update hupdate hpc with hkept | rfl
    · exact h.signed pc hkept
    · exact hjustify
  · obtain ⟨us, commitBatch, hcommits, hwrite, -⟩ := commitsFor_of_updateBatch hsettled.wf hupdate
    rw [hwrite _ rfl (by simp)] at hb
    rcases hcommits with ⟨target, htarget, hcommits⟩ | ⟨-, -, rfl⟩
    · by_cases hnil : us = []
      · subst hnil
        rw [hcommits.eq_nil] at hb
        exact (h.decided b hb).trans hholds hraises
      · rw [hcommits.highestCommittedBlock_write hnil] at hb
        rw [← Option.some.inj hb]
        exact decided_of_update hsettled hlocked hupdate hphase hjustify htarget
    · exact (h.decided b hb).trans hholds hraises

omit hgenesis in
/-- A vote for the block of the stage. -/
theorem vote {justify : PhaseCertificate} {block : CryptoHash} {phase : Phase} {vote : PhaseVote}
    (hst : st = .mayVote justify block phase) (he : e.phaseVote? = some vote)
    (hblock : vote.block = block) :
    VotesLocked cr vs justifyOf (log ++ [e]) s .voted := by
  subst hst hblock
  obtain ⟨hlock, hbinds⟩ := h.stage
  refine ⟨h.signed, ?_, trivial, ?_, h.decided⟩
  · rw [phaseVotes_snoc he, List.forall_mem_append, List.forall_mem_singleton]
    exact ⟨h.held, hlock⟩
  · rw [phaseVotes_snoc he, List.pairwise_append]
    refine ⟨h.bound, List.pairwise_singleton _ _, fun vote' hvote' => ?_⟩
    rw [List.forall_mem_singleton]
    exact hbinds vote' hvote'

end VotesLocked

theorem VotesLocked.step {a b : State} (h : VotesLocked cr vs justifyOf log a.tree a.stage)
    (hstep : Step cr config apps a e b) (hsettled : Settled cr vs justifyOf a.tree)
    (hjustify : Justifies cr config justifyOf s₀ (log ++ [e])) (htree : a.tree = s₀.replay log)
    (hholds : HoldsLock a.tree b.tree) :
    VotesLocked cr vs justifyOf (log ++ [e]) b.tree b.stage := by
  obtain ⟨hinserted, hroot, hgenesis⟩ := hjustify
  obtain ⟨locked, -, hlocked, -, -⟩ := id hholds
  cases hstep with
  | @act s v st x hx =>
    exact h.go hgenesis hx hholds h.signed h.stage h.decided
  | @insert s v st block appStateUpdates validatorSetUpdates app hst hcorrect hsafe happ hvalid =>
    have hj : justifyOf block.hash = some block.justify := by
      refine hinserted block ⟨log, appStateUpdates, validatorSetUpdates, ?_⟩
      rw [← htree]
      exact ⟨List.prefix_rfl, hcorrect, hsafe⟩
    have hphase := hsettled.phase_of_safePc (safePc_of_safeBlock hsafe).1
    have hsigned := hsettled.signed_of_isCorrect (justify_isCorrect hcorrect)
    refine h.keep hgenesis rfl hholds (fun pc hpc => ?_) (insert_of_block?_eq_none rfl (by simp))
      (insert_of_block?_eq_none rfl (by simp)) ⟨hphase, hsigned, hj, fun vote hvote j k hj' hk => ?_⟩
    · rcases keepsPc_insert hpc with hkept | rfl
      · exact h.signed pc hkept
      · exact hsigned
    · exact hsettled.keepsTo_of_safeBlock hj hcorrect hsafe hlocked
        (h.signed locked (.lockedPc hlocked)) (h.held vote hvote j k locked hj' hk hlocked)
  | @updateInserted s v block phase fuel wb updates hupdate =>
    obtain ⟨hphase, hsigned, hj, hbinds⟩ := h.stage
    exact h.update hgenesis hsettled hupdate hphase hsigned hholds
      ⟨holdsLockOf_update hsettled hupdate hphase hroot hj hlocked, hbinds⟩
  | nudge _ _ hsafe hphase => exact absurd hsafe (hsettled.not_safeNudge hphase)
  | accept _ hcorrect hsafe hupdate =>
    exact h.update hgenesis hsettled hupdate (hsettled.phase_of_safePc hsafe)
      (hsettled.signed_of_isCorrect hcorrect) hholds trivial
  | vote => exact h.vote rfl rfl rfl
  | record => exact h.note hgenesis (.inr (.inr rfl)) hholds
  | setHighestTc => exact h.note hgenesis (.inr (.inl rfl)) hholds
  | enterView => exact h.note hgenesis (.inl rfl) hholds
  | crash => exact h.keep hgenesis rfl hholds h.signed rfl rfl trivial

/-- The replica never gives up its lock. -/
def NeverUnlocks (s₀ : BlockTree) (log : List Event) : Prop :=
  ∀ before e, before ++ [e] <+: log → HoldsLock (s₀.replay before) (s₀.replay (before ++ [e]))

theorem votesLocked_of_path {appState : AppStateUpdates} {vss : ValidatorSetState} {v₀ : ViewNumber}
    {a : State} (path : Path (Step cr config apps) ⟨initial appState vss, v₀, .idle⟩ log a)
    (hfixed : FixedValidators apps) (hheight : vss.updateHeight = none)
    (hinserted : Inserted (initial appState vss) (fun s block _ => s.InsertedAbove block) log)
    (hjustify : Justifies cr config justifyOf (initial appState vss) log)
    (hholds : NeverUnlocks (initial appState vss) log) :
    VotesLocked cr vss.committedValidatorSet justifyOf log a.tree a.stage := by
  induction path with
  | nil => exact .initial
  | @snoc log t e u path last ih =>
    have hprefix : log <+: log ++ [e] := List.prefix_append ..
    have hjustify' := hjustify.of_prefix hprefix
    have htree : t.tree = (initial appState vss).replay log := path_tree path
    have hbefore := ih (hinserted.of_prefix hprefix) hjustify'
      fun before e hbefore => hholds before e (hbefore.trans hprefix)
    have hsettled := settled_of_path (path.map State.tree fun _ _ _ => Step.treeStep) hfixed
      hheight (hinserted.of_prefix hprefix) hjustify'
    refine hbefore.step last hsettled hjustify htree ?_
    have hlast := hholds log e List.prefix_rfl
    rwa [replay_snoc, ← htree, ← last.tree_eq] at hlast

end Protocol
end HotStuffRs
