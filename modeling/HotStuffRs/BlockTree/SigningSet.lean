import HotStuffRs.BlockTree.CommitEach

/-
Which validator set a certificate about a block with validator set updates is checked
against, before and after the updates are put into effect.
-/

namespace HotStuffRs
namespace BlockTree

open Kv

variable {cr : Crypto} {s : BlockTree} {b : CryptoHash} {height : BlockHeight}
variable {updates : ValidatorSetUpdates} {vss : ValidatorSetState}

/-- `b` is uncommitted and has pending validator set updates, as the only block between it
and the highest committed block. -/
structure PendingUpdate (s : BlockTree) (b : CryptoHash) (height : BlockHeight)
    (updates : ValidatorSetUpdates) (vss : ValidatorSetState) : Prop where
  wf : s.WellFormed
  hvss : s.kv.validatorSetState = .ok vss
  hheight : s (.blockHeight b) = some height
  hpending : s (.validatorSetUpdatesStatus b) = some (.pending updates)
  habove : ∀ min ∈ s.committedHeight, min < height
  honly : ∀ us, Walk s s.committedHeight (some b) us → ∀ x ∈ us, x ≠ b →
    ∀ updates, s (.validatorSetUpdatesStatus x) ≠ some (.pending updates)

/-- The set that certificates about a block count in that is not the last to update the
validator set. -/
def setBefore (vss : ValidatorSetState) (height : BlockHeight) : ValidatorSet :=
  match vss.updateHeight with
  | some updateHeight =>
    if height < updateHeight then vss.previousValidatorSet else vss.committedValidatorSet
  | none => vss.committedValidatorSet

variable {pc : PhaseCertificate}

namespace PendingUpdate

theorem signingSet (h : PendingUpdate s b height updates vss) (hpc : pc.block = b)
    (hphase : pc.phase ≠ .generic) :
    pc.signingSet s = .ok (some (if pc.phase = .decide ∧ vss.updateHeight = some height then
      vss.committedValidatorSet.applyUpdates updates else setBefore vss height)) := by
  have hstatus : s.kv.validatorSetUpdatesStatus pc.block = .ok (.pending updates) :=
    pending_iff.mpr (hpc ▸ h.hpending)
  have hvs : s.kv.committedValidatorSet = .ok vss.committedValidatorSet :=
    kv_committedValidatorSet_eq_ok.mpr (kv_validatorSetState_eq_ok.mp h.hvss).1
  simp only [PhaseCertificate.signingSet, kv_blockHeight, Result.ok_bind, h.hvss, hpc, h.hheight]
  rw [hpc] at hstatus
  cases hu : vss.updateHeight with
  | none => simp [setBefore, hu]
  | some updateHeight =>
    simp only [setBefore, hu, Option.some.injEq]
    rcases lt_trichotomy height updateHeight with hlt | rfl | hgt
    · simp [hlt, hlt.ne']
    · cases hp : pc.phase with
      | generic => exact (hphase hp).elim
      | decide | prepare | precommit | commit => simp [hstatus, hvs]
    · simp [hgt, hgt.not_gt, hgt.ne]

theorem mem_walk (h : PendingUpdate s b height updates vss) {us : List CryptoHash}
    (walk : Walk s s.committedHeight (some b) us) : b ∈ us := by
  cases walk with
  | stop hmin hb hle =>
    rw [h.hheight, Option.some.injEq] at hb
    exact absurd (h.habove _ hmin) (not_lt.mpr (hb ▸ hle))
  | step => exact List.mem_cons_self

theorem signingSet_commit (h : PendingUpdate s b height updates vss) (hpc : pc.block = b)
    (hphase : pc.phase ≠ .generic) {us : List CryptoHash} {wb : WriteBatch}
    (hcommits : Commits s b us wb) :
    pc.signingSet (s.write wb) = .ok (some (if pc.phase = .decide then
      vss.committedValidatorSet.applyUpdates updates else vss.committedValidatorSet)) := by
  have hops : ∀ o ∈ validatorSetOps b height vss.committedValidatorSet updates,
      s.write wb o.key = o.value := fun o ho =>
    hcommits.validatorSetOps_write h.wf (h.mem_walk hcommits.walk) h.hpending
      (h.honly us hcommits.walk) h.hheight (kv_validatorSetState_eq_ok.mp h.hvss).1 ho
  simp only [validatorSetOps, List.forall_mem_cons, List.not_mem_nil, false_implies,
    implies_true, and_true, Op.key_set, Op.value_set] at hops
  obtain ⟨hcommitted, hprevious, hupdateHeight, hdecided, hstatus⟩ := hops
  have hheight : s.write wb (.blockHeight b) = some height :=
    (hcommits.field_write rfl rfl (hcommits.not_prunes h.wf (.refl b))).trans h.hheight
  have hvss : (Store.kv (s.write wb)).validatorSetState =
      .ok ⟨vss.committedValidatorSet.applyUpdates updates, vss.committedValidatorSet,
        some height, false⟩ :=
    kv_validatorSetState_eq_ok.mpr ⟨hcommitted, hprevious, hupdateHeight, hdecided⟩
  simp only [PhaseCertificate.signingSet, kv_blockHeight, Result.ok_bind, hvss, hpc, hheight,
    kv_validatorSetUpdatesStatus, hstatus, lt_irrefl, if_false]
  cases hp : pc.phase with
  | generic => exact (hphase hp).elim
  | decide | prepare | precommit | commit => simp

end PendingUpdate

/-- The verdict about `pc` in the set that it is checked against before its block is
committed is the verdict in the set that it is checked against afterwards. -/
def JudgedAlike (cr : Crypto) (vss : ValidatorSetState) (height : BlockHeight)
    (updates : ValidatorSetUpdates) (pc : PhaseCertificate) : Prop :=
  if pc.phase = .decide then
    vss.updateHeight = some height ∨
      pc.isCorrectlySigned cr (setBefore vss height) =
        pc.isCorrectlySigned cr (vss.committedValidatorSet.applyUpdates updates)
  else
    (∃ updateHeight ∈ vss.updateHeight, height < updateHeight) →
      pc.isCorrectlySigned cr vss.previousValidatorSet =
        pc.isCorrectlySigned cr vss.committedValidatorSet

theorem isCorrect_of_signingSet {vs : ValidatorSet} (hphase : pc.phase ≠ .generic)
    (h : pc.signingSet s = .ok (some vs)) : pc.isCorrect cr s = pc.isCorrectlySigned cr vs := by
  have hgenesis : pc.isGenesisPc = false := by
    cases hpc : pc.isGenesisPc with
    | false => rfl
    | true =>
      rw [PhaseCertificate.isGenesisPc_iff] at hpc
      exact (hphase (hpc ▸ rfl)).elim
  simp [PhaseCertificate.isCorrect, hgenesis, h]

namespace PendingUpdate

theorem exists_after (h : PendingUpdate s b height updates vss) : ∃ after us wb,
    Result.Eventually (fun fuel => commitAtOnce s fuel b) after ∧
    Commits s b us wb ∧ after = s.write wb := by
  have hstored := h.wf.stored_of_height h.hheight
  have hvs : (s .committedValidatorSet).isSome = true := by
    rw [(kv_validatorSetState_eq_ok.mp h.hvss).1]
    rfl
  obtain ⟨us, walk⟩ := exists_walk h.wf s.committedHeight hstored
  have hround : ∀ x ∈ us.reverse,
      ∃ round, Result.Eventually (fun fuel => commitBlock s fuel b x) round :=
    fun x hx => eventually_commitBlock h.wf hvs
      (walk.stored_of_mem h.wf (fun _ h => Option.some.inj h ▸ hstored) (List.mem_reverse.mp hx)) b
  obtain ⟨rounds, hrounds⟩ := Result.Eventually.mapM hround
  have hcommit := eventually_commit walk hrounds
  obtain ⟨n, hn⟩ := hcommit
  obtain ⟨us', hcommits⟩ := commits_of_commit h.wf (hn n le_rfl)
  exact ⟨_, us', _, Result.Eventually.bind ⟨n, hn⟩ (.const rfl), hcommits, rfl⟩

theorem isCorrect_write_iff (h : PendingUpdate s b height updates vss) (hpc : pc.block = b)
    (hphase : pc.phase ≠ .generic) {us : List CryptoHash} {wb : WriteBatch}
    (hcommits : Commits s b us wb) :
    pc.isCorrect cr (s.write wb) = pc.isCorrect cr s ↔ JudgedAlike cr vss height updates pc := by
  rw [isCorrect_of_signingSet hphase (h.signingSet hpc hphase),
    isCorrect_of_signingSet hphase (h.signingSet_commit hpc hphase hcommits), JudgedAlike]
  by_cases hdecide : pc.phase = .decide
  · by_cases hlast : vss.updateHeight = some height
    · simp [hdecide, hlast]
    · simp [hdecide, hlast, eq_comm]
  · simp only [hdecide, if_false, false_and, setBefore]
    cases vss.updateHeight with
    | none => simp
    | some updateHeight =>
      by_cases hlt : height < updateHeight
      · simp [hlt, eq_comm]
      · simp [hlt]

end PendingUpdate

/-- A phased mode certificate about a block with pending validator set updates gets the same
verdict before and after the block is committed exactly if the two sets that it is checked
against agree on it. -/
theorem isCorrect_commit_iff (h : PendingUpdate s b height updates vss) (hpc : pc.block = b)
    (hphase : pc.phase ≠ .generic) :
    ∃ after, Result.Eventually (fun fuel => commitAtOnce s fuel b) after ∧
      (pc.isCorrect cr after = pc.isCorrect cr s ↔ JudgedAlike cr vss height updates pc) := by
  obtain ⟨after, us, wb, hafter, hcommits, rfl⟩ := h.exists_after
  exact ⟨_, hafter, h.isCorrect_write_iff hpc hphase hcommits⟩

/-! A block that adds a validator, and certificates about it. -/

/-- A certificate about block `1` that the given validators signed. -/
def certifyUpdate (phase : Phase) (validators : List VerifyingKey) : PhaseCertificate where
  chainId := 7
  view := 1
  block := 1
  phase
  signatures := validators.map fun validator =>
    some (Sample.crypto.sign validator (phaseVoteBytes 7 1 1 phase))

theorem walk_oneUpdate : Walk oneUpdate oneUpdate.committedHeight (some 1) [1] := by
  have h : uncommittedFrom oneUpdate oneUpdate.committedHeight 2 (some 1) = .ok [1] := by
    decide +kernel
  exact walk_of_uncommittedFrom h

theorem pendingUpdate_oneUpdate : PendingUpdate oneUpdate 1 0 (addValidator 2)
    ⟨ValidatorSet.new.put 1 1, ValidatorSet.new.put 1 1, none, true⟩ where
  wf := wellFormed_oneUpdate
  hvss := by decide +kernel
  hheight := by decide +kernel
  hpending := by decide +kernel
  habove min hmin := by
    have hnone : oneUpdate.committedHeight = none := by decide +kernel
    rw [hnone] at hmin
    cases hmin
  honly us walk x hx hne := by
    obtain rfl := walk.unique walk_oneUpdate
    exact (hne (List.mem_singleton.mp hx)).elim

/-- A Commit PC is the old validator set's affair before and after. -/
theorem isCorrect_commit_iff_oneUpdate : ∃ after,
    Result.Eventually (fun fuel => commitAtOnce oneUpdate fuel 1) after ∧
    (certifyUpdate .commit [1]).isCorrect Sample.crypto after =
      (certifyUpdate .commit [1]).isCorrect Sample.crypto oneUpdate := by
  have hphase : (certifyUpdate .commit [1]).phase ≠ .generic := by decide
  obtain ⟨after, hafter, hiff⟩ := isCorrect_commit_iff pendingUpdate_oneUpdate rfl hphase
  refine ⟨after, hafter, hiff.mpr ?_⟩
  rintro ⟨updateHeight, hnone, -⟩
  cases hnone

/-- A Decide PC of the updated validator set is only accepted once its block is committed. -/
theorem isCorrect_depends_on_commit : ¬∀ (cr : Crypto) (s : BlockTree) (b : CryptoHash)
    (height : BlockHeight) (updates : ValidatorSetUpdates) (vss : ValidatorSetState)
    (pc : PhaseCertificate) (after : BlockTree), PendingUpdate s b height updates vss →
    (∀ us, Walk s s.committedHeight (some b) us → us.reverse.IsChain (HeightsGrow s)) →
    pc.block = b → pc.phase ≠ .generic →
    Result.Eventually (fun fuel => commitAtOnce s fuel b) after →
    pc.isCorrect cr after = pc.isCorrect cr s := by
  intro h
  have hpending := pendingUpdate_oneUpdate
  obtain ⟨after, us, wb, hafter, hcommits, rfl⟩ := hpending.exists_after
  have hheights : ∀ us, Walk oneUpdate oneUpdate.committedHeight (some 1) us →
      us.reverse.IsChain (HeightsGrow oneUpdate) := by
    intro us walk
    obtain rfl := walk.unique walk_oneUpdate
    exact List.isChain_singleton 1
  have hphase : (certifyUpdate .decide [1, 2]).phase ≠ .generic := by decide
  have hsame := h Sample.crypto oneUpdate 1 0 _ _ (certifyUpdate .decide [1, 2]) _ hpending
    hheights rfl hphase hafter
  have halike := (hpending.isCorrect_write_iff rfl hphase hcommits).mp hsame
  rw [JudgedAlike, if_pos (show (certifyUpdate .decide [1, 2]).phase = .decide from rfl)] at halike
  rcases halike with hlast | hverdict
  · cases hlast
  · revert hverdict
    decide +kernel

end BlockTree
end HotStuffRs
