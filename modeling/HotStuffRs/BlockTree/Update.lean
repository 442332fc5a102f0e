import HotStuffRs.BlockTree.Insert

/-
What acting upon a certificate changes.

`update` moves the highest PC and the lock, commits at most one chain of blocks, and may
mark the latest validator set update as decided.
-/

namespace HotStuffRs
namespace BlockTree

open Kv

variable {s s' : BlockTree} {justify : PhaseCertificate}

/-! ## Locking -/

/-- The lock that a replica locked on `locked` has after acting upon `justify`. -/
inductive NextLock (s : BlockTree) (justify locked : PhaseCertificate) : PhaseCertificate → Prop
  | genesis (hj : justify = .genesisPc) : NextLock s justify locked locked
  | generic {parentJustify} (hne : justify ≠ .genesisPc) (hphase : justify.phase = .generic)
      (hparent : s (.blockJustify justify.block) = some parentJustify) :
    NextLock s justify locked parentJustify
  | prepare (hphase : justify.phase = .prepare) : NextLock s justify locked locked
  | precommit (hphase : justify.phase = .precommit) : NextLock s justify locked justify
  | same (hphase : justify.phase = .commit ∨ justify.phase = .decide)
      (hblock : locked.block = justify.block) : NextLock s justify locked locked
  | other (hphase : justify.phase = .commit ∨ justify.phase = .decide)
      (hblock : locked.block ≠ justify.block) : NextLock s justify locked justify

/-- `pc_to_lock` returns the next lock, or nothing if the lock stays. -/
theorem nextLock_of_pcToLock {locked : PhaseCertificate} {new : Option PhaseCertificate}
    (hlocked : s .lockedPc = some locked) (h : s.pcToLock justify = .ok new) :
    NextLock s justify locked (new.getD locked) := by
  have hlock : s.kv.lockedPc = .ok locked := kv_lockedPc_eq_ok.mpr hlocked
  by_cases hgenesis : justify = .genesisPc
  · obtain rfl : none = new := by simpa [pcToLock, hgenesis] using h
    exact .genesis hgenesis
  · have hnot : justify.isGenesisPc = false := by simpa [PhaseCertificate.isGenesisPc] using hgenesis
    simp only [pcToLock, hnot, Bool.false_eq_true, if_false, hlock, Result.ok_bind] at h
    -- The lock that the phase asks for is the lock afterwards, whether it is new or not.
    have hnew : ∀ candidate : Option PhaseCertificate,
        (if candidate = some locked then none else candidate) = new →
        new.getD locked = candidate.getD locked := by
      rintro candidate rfl
      split
      · rename_i hsame
        simp [hsame]
      · rfl
    cases hphase : justify.phase with
    | generic =>
      simp only [hphase, Result.bind_eq_ok, kv_blockJustify_eq_ok, Result.pure_eq,
        Result.ok_bind, Except.ok.injEq] at h
      obtain ⟨parentJustify, hparent, h⟩ := h
      rw [hnew _ h]
      exact .generic hgenesis hphase hparent
    | prepare =>
      simp only [hphase, Result.pure_eq, Result.ok_bind, Except.ok.injEq] at h
      rw [hnew _ h]
      exact .prepare hphase
    | precommit =>
      simp only [hphase, Result.pure_eq, Result.ok_bind, Except.ok.injEq] at h
      rw [hnew _ h]
      exact .precommit hphase
    | commit | decide =>
      simp only [hphase, Result.pure_eq, Result.ok_bind, Except.ok.injEq] at h
      rw [hnew _ h]
      by_cases hblock : locked.block = justify.block
      · simp only [hblock, ne_eq, not_true_eq_false, if_false]
        exact .same (by simp [hphase]) hblock
      · simp only [ne_eq, hblock, not_false_eq_true, if_true]
        exact .other (by simp [hphase]) hblock

/-! ## What to commit -/

theorem notCommittedYet_eq_ok {b : CryptoHash} {yes : Bool} (h : s.notCommittedYet b = .ok yes) :
    ∃ height, s (.blockHeight b) = some height ∧
      yes = s.committedHeight.all (· < height) := by
  simp only [notCommittedYet, kv_blockHeight, Result.ok_bind] at h
  cases hb : s (.blockHeight b) with
  | none => simp [hb] at h
  | some height =>
    simp only [hb, kv_highestCommittedBlockHeight, Result.ok_bind, Result.pure_eq,
      Except.ok.injEq] at h
    exact ⟨height, rfl, h.symm⟩

/-- The block to commit is not committed yet.  It is two links away from the certified block in
the pipelined mode, and is the certified block in the phased mode. -/
theorem blockToCommit_eq_ok {target : CryptoHash}
    (h : s.blockToCommit justify = .ok (some target)) :
    s.notCommittedYet target = .ok true ∧
      ((justify.phase = .generic ∧ ∃ parentJustify, s (.blockJustify justify.block) =
        some parentJustify ∧ s.up parentJustify.block = some target) ∨
      ((justify.phase = .commit ∨ justify.phase = .decide) ∧ justify.block = target)) := by
  -- Whatever the rule for committing `b` is, the height of `b` is compared.
  have hrule : ∀ (rule : Bool) (b : CryptoHash), (do
      let notCommittedYet ← s.notCommittedYet b
      return if rule && notCommittedYet then some b else none : Result (Option CryptoHash)) =
        .ok (some target) → s.notCommittedYet target = .ok true ∧ b = target := by
    intro rule b hb
    obtain ⟨yes, hyes, hb⟩ := Result.bind_eq_ok.mp hb
    simp only [Result.pure_eq, Except.ok.injEq, Option.ite_none_right_eq_some,
      Bool.and_eq_true] at hb
    obtain ⟨⟨-, rfl⟩, hb⟩ := hb
    obtain rfl := Option.some.inj hb
    exact ⟨hyes, rfl⟩
  unfold blockToCommit at h
  by_cases hgenesis : justify.isGenesisPc = true
  · simp [hgenesis] at h
  rw [if_neg hgenesis] at h
  cases hphase : justify.phase with
  | generic =>
    simp only [hphase, Result.bind_eq_ok, kv_blockJustify_eq_ok] at h
    obtain ⟨parentJustify, hparent, h⟩ := h
    split at h
    · cases h
    obtain ⟨grandparentJustify, hgrandparent, h⟩ := Result.bind_eq_ok.mp h
    rw [kv_blockJustify_eq_ok] at hgrandparent
    have hup : s.up parentJustify.block = some grandparentJustify.block :=
      up_eq_some.mpr ⟨grandparentJustify, hgrandparent, rfl⟩
    split at h
    · cases h
    obtain ⟨afterParent, -, h⟩ := Result.bind_eq_ok.mp h
    have htarget : s.notCommittedYet target = .ok true ∧ grandparentJustify.block = target := by
      split at h
      · obtain ⟨afterGrandparent, -, h⟩ := Result.bind_eq_ok.mp h
        exact hrule _ _ h
      · exact hrule false _ h
    exact ⟨htarget.1, .inl ⟨rfl, parentJustify, hparent, hup.trans (congrArg some htarget.2)⟩⟩
  | prepare | precommit => simp [hphase] at h
  | commit | decide =>
    simp only [hphase] at h
    obtain ⟨hyet, htarget⟩ := hrule true justify.block (by simpa using h)
    exact ⟨hyet, .inr ⟨by simp, htarget⟩⟩

/-- In the pipelined mode the views of the certificate, of the justify of its block and of that of
its parent are in a row, and the latter is about the block to commit. -/
theorem views_of_blockToCommit {target : CryptoHash} (hphase : justify.phase = .generic)
    (h : s.blockToCommit justify = .ok (some target)) :
    ∃ parentJustify grandparentJustify, s (.blockJustify justify.block) = some parentJustify ∧
      s (.blockJustify parentJustify.block) = some grandparentJustify ∧
      justify ≠ .genesisPc ∧ parentJustify ≠ .genesisPc ∧ grandparentJustify ≠ .genesisPc ∧
      grandparentJustify.block = target ∧ parentJustify.view.val + 1 = justify.view.val ∧
      grandparentJustify.view.val + 1 = parentJustify.view.val := by
  have hne : ∀ {pc : PhaseCertificate}, ¬pc.isGenesisPc = true → pc ≠ .genesisPc := by
    intro pc hpc heq
    exact hpc (PhaseCertificate.isGenesisPc_iff.mpr heq)
  simp only [blockToCommit, hphase] at h
  split at h
  · cases h
  rename_i hjustify
  obtain ⟨parentJustify, hparent, h⟩ := Result.bind_eq_ok.mp h
  split at h
  · cases h
  rename_i hnot
  obtain ⟨grandparentJustify, hgrandparent, h⟩ := Result.bind_eq_ok.mp h
  split at h
  · cases h
  rename_i hnot'
  obtain ⟨afterParent, hafter, h⟩ := Result.bind_eq_ok.mp h
  have hlast : ∀ rule : Bool, (do
      let notCommittedYet ← s.notCommittedYet grandparentJustify.block
      return if rule && notCommittedYet then some grandparentJustify.block else none :
        Result (Option CryptoHash)) = .ok (some target) →
      rule = true ∧ grandparentJustify.block = target := by
    intro rule h
    simp only [Result.bind_eq_ok, Result.pure_eq, Except.ok.injEq, Option.ite_none_right_eq_some,
      Bool.and_eq_true] at h
    obtain ⟨yet, -, ⟨hrule, -⟩, htarget⟩ := h
    exact ⟨hrule, Option.some.inj htarget⟩
  split at h
  · rename_i hview
    obtain ⟨afterGrandparent, hafter', h⟩ := Result.bind_eq_ok.mp h
    obtain ⟨hview', htarget⟩ := hlast _ h
    refine ⟨parentJustify, grandparentJustify, kv_blockJustify_eq_ok.mp hparent,
      kv_blockJustify_eq_ok.mp hgrandparent, hne hjustify, hne hnot, hne hnot', htarget, ?_, ?_⟩
    · rw [hview]
      exact U64.add_eq_ok.mp hafter
    · rw [of_decide_eq_true hview']
      exact U64.add_eq_ok.mp hafter'
  · exact absurd (hlast false h).1 Bool.false_ne_true

/-- The block to commit is in the tree, above the highest committed one. -/
theorem height_of_blockToCommit {target : CryptoHash}
    (h : s.blockToCommit justify = .ok (some target)) :
    ∃ height, s (.blockHeight target) = some height ∧ s.committedHeight.all (· < height) = true := by
  obtain ⟨height, hheight, hyes⟩ := notCommittedYet_eq_ok (blockToCommit_eq_ok h).1
  exact ⟨height, hheight, hyes.symm⟩

theorem stored_of_blockToCommit (wf : s.WellFormed) {target : CryptoHash}
    (h : s.blockToCommit justify = .ok (some target)) : s.Stored target := by
  obtain ⟨height, hheight, -⟩ := height_of_blockToCommit h
  exact wf.stored_of_height hheight

/-! ## The writes of an update -/

/-- The blocks that acting upon `justify` commits, newest first, by the writes `wb`. -/
def CommitsFor (s : BlockTree) (justify : PhaseCertificate) (us : List CryptoHash)
    (wb : WriteBatch) : Prop :=
  (∃ target, s.blockToCommit justify = .ok (some target) ∧ Commits s target us wb) ∨
  (s.blockToCommit justify = .ok none ∧ us = [] ∧ wb = [])

variable {fuel : Nat} {wb : WriteBatch} {updates : Option ValidatorSetUpdates}

/-- The writes of `update` in their order: the highest PC, the lock, the commit, and the
flag that a validator set update was decided.  Of the updates committed, the last is
returned. -/
theorem commit_of_updateBatch (h : s.updateBatch fuel justify = .ok (wb, updates)) :
    ∃ highest new target commitBatch committed, s .highestPc = some highest ∧
      s.pcToLock justify = .ok new ∧ s.blockToCommit justify = .ok target ∧
      (∀ block ∈ target, commit s fuel block = .ok (commitBatch, committed)) ∧
      (target = none → commitBatch = [] ∧ committed = []) ∧
      updates = committed.reverse.findSome? Prod.snd ∧
      wb = (if highest.view < justify.view then WriteBatch.setHighestPc justify else []) ++
        new.elim [] WriteBatch.setLockedPc ++ commitBatch ++
        (if justify.phase = .decide then WriteBatch.setValidatorSetUpdateDecided true else []) := by
  simp only [updateBatch, Result.bind_eq_ok, kv_highestPc_eq_ok] at h
  obtain ⟨highest, hhighest, new, hnew, target, htarget, h⟩ := h
  cases target with
  | none =>
    simp only [Result.pure_eq, Result.ok_bind, Except.ok.injEq, Prod.mk.injEq] at h
    refine ⟨highest, new, none, [], [], hhighest, hnew, htarget, fun _ hb => (nomatch hb),
      fun _ => ⟨rfl, rfl⟩, h.2.symm, ?_⟩
    rw [← h.1]
    cases new <;> simp
  | some target =>
    simp only [Result.bind_eq_ok, Result.pure_eq, Except.ok.injEq, Prod.mk.injEq] at h
    obtain ⟨⟨commitBatch, committed⟩, hcommit, h, hupdates⟩ := h
    refine ⟨highest, new, some target, commitBatch, committed, hhighest, hnew, htarget,
      fun b hb => ?_, fun hn => (nomatch hn), hupdates.symm, ?_⟩
    · obtain rfl := Option.some.inj hb
      exact hcommit
    · rw [← h]
      cases new <;> simp

theorem updateBatch_eq_ok (h : s.updateBatch fuel justify = .ok (wb, updates)) :
    ∃ highest new target commitBatch, s .highestPc = some highest ∧
      s.pcToLock justify = .ok new ∧ s.blockToCommit justify = .ok target ∧
      (∀ block ∈ target, ∃ committed, commit s fuel block = .ok (commitBatch, committed)) ∧
      (target = none → commitBatch = []) ∧
      wb = (if highest.view < justify.view then WriteBatch.setHighestPc justify else []) ++
        new.elim [] WriteBatch.setLockedPc ++ commitBatch ++
        (if justify.phase = .decide then WriteBatch.setValidatorSetUpdateDecided true else []) := by
  obtain ⟨highest, new, target, commitBatch, committed, hhighest, hnew, htarget, hcommit, hnone,
    -, hwb⟩ := commit_of_updateBatch h
  exact ⟨highest, new, target, commitBatch, hhighest, hnew, htarget,
    fun block hblock => ⟨committed, hcommit block hblock⟩, fun hn => (hnone hn).1, hwb⟩

/-- Progress variables are written by the parts of an update that are about them. -/
theorem write_updateBatch_of_isProgress {highest : PhaseCertificate}
    {new : Option PhaseCertificate} {target : Option CryptoHash} {commitBatch : WriteBatch}
    (hcommit : ∀ block ∈ target, ∃ committed, commit s fuel block = .ok (commitBatch, committed))
    (hnone : target = none → commitBatch = []) {v : Var} (hv : v.isProgress = true) :
    s.write ((if highest.view < justify.view then WriteBatch.setHighestPc justify else []) ++
        new.elim [] WriteBatch.setLockedPc ++ commitBatch ++
        (if justify.phase = .decide then WriteBatch.setValidatorSetUpdateDecided true else [])) v =
      s.write ((if highest.view < justify.view then WriteBatch.setHighestPc justify else []) ++
        new.elim [] WriteBatch.setLockedPc) v := by
  rw [Store.write_append, Store.write_of_notMem _ fun o ho hk => ?_, Store.write_append,
    Store.write_of_notMem _ fun o ho hk => ?_]
  · cases target with
    | none =>
      rw [hnone rfl] at ho
      cases ho
    | some target =>
      obtain ⟨committed, hcommit⟩ := hcommit target rfl
      rw [hk, not_isProgress_of_mem_commit hcommit ho] at hv
      cases hv
  · split at ho
    · obtain rfl := List.mem_singleton.mp ho
      rw [hk] at hv
      cases hv
    · cases ho

/-- What comes before the commit is about progress. -/
theorem ne_key_of_mem_highestAndLock {highest : PhaseCertificate} {new : Option PhaseCertificate}
    {v : Var} (hv : v.isProgress = false) :
    ∀ o ∈ (if highest.view < justify.view then WriteBatch.setHighestPc justify else []) ++
      new.elim [] WriteBatch.setLockedPc, v ≠ o.key := by
  intro o ho hkey
  rcases List.mem_append.mp ho with ho | ho
  · split at ho
    · obtain rfl := List.mem_singleton.mp ho
      rw [hkey] at hv
      cases hv
    · cases ho
  · cases new with
    | none => cases ho
    | some pc =>
      obtain rfl := List.mem_singleton.mp ho
      rw [hkey] at hv
      cases hv

/-- Other variables are written by the commit, but for the flag that a validator set update
was decided. -/
theorem write_updateBatch_of_not_isProgress {highest : PhaseCertificate}
    {new : Option PhaseCertificate} {commitBatch : WriteBatch} {v : Var}
    (hv : v.isProgress = false) (hdecided : v ≠ .validatorSetUpdateDecided) :
    s.write ((if highest.view < justify.view then WriteBatch.setHighestPc justify else []) ++
        new.elim [] WriteBatch.setLockedPc ++ commitBatch ++
        (if justify.phase = .decide then WriteBatch.setValidatorSetUpdateDecided true else [])) v =
      s.write commitBatch v := by
  rw [Store.write_append, Store.write_of_notMem _ fun o ho hk => ?_,
    Store.write_append_of_notMem _ (ne_key_of_mem_highestAndLock hv)]
  split at ho
  · obtain rfl := List.mem_singleton.mp ho
    exact hdecided hk
  · cases ho

/-- A field of a block is kept by an update, or deleted. -/
theorem field_write_update (h : s.updateBatch fuel justify = .ok (wb, updates)) {v : Var}
    (hv : v.isField = true) : s.write wb v = s v ∨ s.write wb v = none := by
  obtain ⟨highest, new, target, commitBatch, -, -, -, hcommit, hnone, rfl⟩ := updateBatch_eq_ok h
  have hprogress : v.isProgress = false := by
    cases v <;> first | rfl | cases hv
  have hdecided : v ≠ .validatorSetUpdateDecided := by
    rintro rfl
    cases hv
  rw [write_updateBatch_of_not_isProgress hprogress hdecided]
  cases target with
  | none =>
    rw [hnone rfl]
    exact .inl rfl
  | some target =>
    obtain ⟨committed, hcommit⟩ := hcommit target rfl
    exact field_write_commit hcommit hv

/-- Acting upon `justify` moves the lock to the next lock. -/
theorem lockedPc_update {locked : PhaseCertificate} (hlocked : s .lockedPc = some locked)
    (h : s.updateBatch fuel justify = .ok (wb, updates)) :
    ∃ locked', s.write wb .lockedPc = some locked' ∧ NextLock s justify locked locked' := by
  obtain ⟨highest, new, target, commitBatch, -, hnew, -, hcommit, hnone, rfl⟩ := updateBatch_eq_ok h
  refine ⟨new.getD locked, ?_, nextLock_of_pcToLock hlocked hnew⟩
  rw [write_updateBatch_of_isProgress hcommit hnone rfl,
    Store.write_append_of_notMem _ fun o ho hk => ?_]
  · cases new with
    | none => exact hlocked
    | some pc => exact Store.apply_set s .lockedPc pc
  · split at ho
    · obtain rfl := List.mem_singleton.mp ho
      cases hk
    · cases ho

/-- A certificate to lock on is `justify`, or the one that the certified block carries. -/
theorem cases_of_pcToLock {pc : PhaseCertificate} (h : s.pcToLock justify = .ok (some pc)) :
    pc = justify ∨ s (.blockJustify justify.block) = some pc := by
  by_cases hgenesis : justify.isGenesisPc = true
  · simp [pcToLock, hgenesis] at h
  · rw [Bool.not_eq_true] at hgenesis
    simp only [pcToLock, hgenesis, Bool.false_eq_true, if_false, Result.bind_eq_ok] at h
    obtain ⟨locked, -, h⟩ := h
    have hcandidate : ∀ candidate : Option PhaseCertificate,
        (if candidate = some locked then none else candidate) = some pc → candidate = some pc := by
      intro candidate h
      split at h
      · cases h
      · exact h
    cases hphase : justify.phase with
    | generic =>
      simp only [hphase, Result.bind_eq_ok, kv_blockJustify_eq_ok, Result.pure_eq,
        Result.ok_bind, Except.ok.injEq] at h
      obtain ⟨parentJustify, hparent, h⟩ := h
      obtain rfl := Option.some.inj (hcandidate _ h)
      exact .inr hparent
    | prepare =>
      simp only [hphase, Result.pure_eq, Result.ok_bind, Except.ok.injEq] at h
      cases hcandidate _ h
    | precommit =>
      simp only [hphase, Result.pure_eq, Result.ok_bind, Except.ok.injEq] at h
      exact .inl (Option.some.inj (hcandidate _ h)).symm
    | commit | decide =>
      simp only [hphase, Result.pure_eq, Result.ok_bind, Except.ok.injEq] at h
      have hnew := hcandidate _ h
      split at hnew
      · exact .inl (Option.some.inj hnew).symm
      · cases hnew

/-- The lock after an update is the one before, `justify`, or the justify of its block. -/
theorem cases_of_lockedPc_update {pc : PhaseCertificate}
    (h : s.updateBatch fuel justify = .ok (wb, updates)) (hpc : s.write wb .lockedPc = some pc) :
    s .lockedPc = some pc ∨ pc = justify ∨ s (.blockJustify justify.block) = some pc := by
  obtain ⟨highest, new, target, commitBatch, -, hnew, -, hcommit, hnone, rfl⟩ := updateBatch_eq_ok h
  rw [write_updateBatch_of_isProgress hcommit hnone rfl,
    Store.write_append_of_notMem _ fun o ho hk => ?_] at hpc
  · cases new with
    | none => exact .inl hpc
    | some new =>
      have hwrite : s.write (WriteBatch.setLockedPc new) .lockedPc = some new :=
        Store.apply_set s .lockedPc new
      obtain rfl : new = pc := Option.some.inj (hwrite.symm.trans hpc)
      exact .inr (cases_of_pcToLock hnew)
  · split at ho
    · obtain rfl := List.mem_singleton.mp ho
      cases hk
    · cases ho

/-- Acting upon `justify` keeps the one of the highest view. -/
theorem highestPc_update (h : s.updateBatch fuel justify = .ok (wb, updates)) :
    ∃ highest, s .highestPc = some highest ∧ s.write wb .highestPc =
      some (if highest.view < justify.view then justify else highest) := by
  obtain ⟨highest, new, target, commitBatch, hhighest, -, -, hcommit, hnone, rfl⟩ :=
    updateBatch_eq_ok h
  refine ⟨highest, hhighest, ?_⟩
  rw [write_updateBatch_of_isProgress hcommit hnone rfl, Store.write_append,
    Store.write_of_notMem _ fun o ho hk => ?_]
  · split
    · exact Store.apply_set s .highestPc justify
    · exact hhighest
  · cases new with
    | none => cases ho
    | some pc =>
      obtain rfl := List.mem_singleton.mp ho
      cases hk

/-- The other progress variables stay. -/
theorem write_update_of_isProgress (h : s.updateBatch fuel justify = .ok (wb, updates)) {v : Var}
    (hv : v.isProgress = true) (hlock : v ≠ .lockedPc) (hhigh : v ≠ .highestPc) :
    s.write wb v = s v := by
  obtain ⟨highest, new, target, commitBatch, -, -, -, hcommit, hnone, rfl⟩ := updateBatch_eq_ok h
  rw [write_updateBatch_of_isProgress hcommit hnone hv]
  refine Store.write_of_notMem s fun o ho hk => ?_
  rcases List.mem_append.mp ho with ho | ho
  · split at ho
    · obtain rfl := List.mem_singleton.mp ho
      exact hhigh hk
    · cases ho
  · cases new with
    | none => cases ho
    | some pc =>
      obtain rfl := List.mem_singleton.mp ho
      exact hlock hk

/-- Everything else changes by the commit alone, but for the flag that a validator set
update was decided. -/
theorem commitsFor_of_updateBatch (wf : s.WellFormed)
    (h : s.updateBatch fuel justify = .ok (wb, updates)) :
    ∃ us commitBatch, CommitsFor s justify us commitBatch ∧
      (∀ v, v.isProgress = false → v ≠ .validatorSetUpdateDecided →
        s.write wb v = s.write commitBatch v) ∧
      s.write wb .validatorSetUpdateDecided = if justify.phase = .decide then some true else
        s.write commitBatch .validatorSetUpdateDecided := by
  obtain ⟨highest, new, target, commitBatch, -, -, htarget, hcommit, hnone, rfl⟩ :=
    updateBatch_eq_ok h
  obtain ⟨us, hus⟩ : ∃ us, CommitsFor s justify us commitBatch := by
    cases target with
    | none => exact ⟨[], .inr ⟨htarget, rfl, hnone rfl⟩⟩
    | some target =>
      obtain ⟨committed, hcommit⟩ := hcommit target rfl
      obtain ⟨us, hus⟩ := commits_of_commit wf hcommit
      exact ⟨us, .inl ⟨target, htarget, hus⟩⟩
  refine ⟨us, commitBatch, hus, fun v => write_updateBatch_of_not_isProgress, ?_⟩
  · by_cases hphase : justify.phase = .decide
    · have hwrite : ∀ t : BlockTree, t.write (WriteBatch.setValidatorSetUpdateDecided true)
          .validatorSetUpdateDecided = some true :=
        fun t => Store.apply_set t .validatorSetUpdateDecided true
      rw [if_pos hphase, if_pos hphase, Store.write_append]
      exact hwrite _
    · rw [if_neg hphase, if_neg hphase, List.append_nil]
      exact Store.write_append_of_notMem _ (ne_key_of_mem_highestAndLock rfl)

/-- Acting upon a certificate keeps the tree well-formed. -/
theorem WellFormed.update (wf : s.WellFormed) (h : s.updateBatch fuel justify = .ok (wb, updates)) :
    WellFormed (s.write wb) := by
  obtain ⟨us, commitBatch, hcommits, hkept, -⟩ := commitsFor_of_updateBatch wf h
  have hwf : WellFormed (s.write commitBatch) := by
    rcases hcommits with ⟨target, -, hcommits⟩ | ⟨-, -, rfl⟩
    · exact hcommits.wellFormed wf
    · exact wf
  refine hwf.congr fun v x hv => hkept v (Var.isProgress_of_block? hv) ?_
  rintro rfl
  cases hv

/-- Acting upon a certificate inserts no block. -/
theorem not_inserts_updateBatch (h : s.updateBatch fuel justify = .ok (wb, updates)) :
    ¬ WriteBatch.Inserts wb := by
  obtain ⟨highest, new, target, commitBatch, -, -, -, hcommit, hnone, rfl⟩ := updateBatch_eq_ok h
  intro hinserts
  obtain ⟨block, hmem⟩ := hinserts
  rcases List.mem_append.mp hmem with hmem | hmem
  · rcases List.mem_append.mp hmem with hmem | hmem
    · rcases List.mem_append.mp hmem with hmem | hmem
      · split at hmem
        · cases List.mem_singleton.mp hmem
        · cases hmem
      · cases new with
        | none => cases hmem
        | some pc => cases List.mem_singleton.mp hmem
    · cases target with
      | none =>
        rw [hnone rfl] at hmem
        cases hmem
      | some target =>
        obtain ⟨committed, hcommit⟩ := hcommit target rfl
        cases not_isProgress_of_mem_commit hcommit hmem
  · split at hmem
    · cases List.mem_singleton.mp hmem
    · cases hmem

end BlockTree
end HotStuffRs
