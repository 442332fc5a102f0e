import HotStuffRs.BlockTree.Update

/-
Which validator set updates a write puts into effect.

The blocks that a batch commits can be read off its writes, and their validator set updates
off the tree before it.  `update` returns the last of these updates only, and only the last
is found in the committed validator set afterwards, since every round of a commit applies its
own to the validator set before the batch.
-/

namespace HotStuffRs

open Kv

/-- The blocks that a batch commits, in their order. -/
def WriteBatch.committedBlocks (wb : WriteBatch) : List CryptoHash :=
  wb.filterMap fun
    | .set .highestCommittedBlock block => some block
    | _ => none

theorem WriteBatch.committedBlocks_append (wb wb' : WriteBatch) :
    committedBlocks (wb ++ wb') = wb.committedBlocks ++ wb'.committedBlocks :=
  List.filterMap_append ..

theorem WriteBatch.committedBlocks_eq_nil {wb : WriteBatch}
    (h : ∀ o ∈ wb, o.key ≠ .highestCommittedBlock) : wb.committedBlocks = [] := by
  refine List.filterMap_eq_nil_iff.mpr fun o ho => ?_
  have hkey := h o ho
  split
  · exact absurd rfl hkey
  · rfl

namespace BlockTree

/-- The validator set updates of `block` that wait for its commit. -/
def pendingUpdates (s : BlockTree) (block : CryptoHash) : Option ValidatorSetUpdates :=
  match s.kv.validatorSetUpdatesStatus block with
  | .ok (.pending updates) => some updates
  | _ => none

/-- The validator set updates of the blocks that `wb` commits, in their order. -/
def committedUpdates (s : BlockTree) (wb : WriteBatch) : List ValidatorSetUpdates :=
  wb.committedBlocks.filterMap s.pendingUpdates

variable {s : BlockTree}

/-- An insertion commits nothing. -/
theorem committedBlocks_insertBatch {block : Block} {appStateUpdates : Option AppStateUpdates}
    {validatorSetUpdates : Option ValidatorSetUpdates} :
    WriteBatch.committedBlocks (s.insertBatch block appStateUpdates validatorSetUpdates) = [] := by
  refine WriteBatch.committedBlocks_eq_nil fun o ho hkey => ?_
  cases mem_insertBatch.mp ho with
  | block ho =>
    have hfield := (key_of_mem_setBlock ho).1
    rw [hkey] at hfield
    cases hfield
  | newestBlock | appState | validatorSet | children => cases hkey

theorem committedUpdates_of_committedBlocks {wb : WriteBatch} (h : wb.committedBlocks = []) :
    s.committedUpdates wb = [] := by
  rw [committedUpdates, h, List.filterMap_nil]

/-- The validator set that results from `updates`, if there are any. -/
def validatorSetAfter (s t : BlockTree) : Option ValidatorSetUpdates → Option ValidatorSet
  | some updates => (s .committedValidatorSet).map (·.applyUpdates updates)
  | none => t .committedValidatorSet

/-! ## One round -/

theorem commitValidatorSetUpdates_eq_ok {target b : CryptoHash} {height : BlockHeight}
    {wb : WriteBatch} {updates : Option ValidatorSetUpdates}
    (h : commitValidatorSetUpdates s target b height = .ok (wb, updates)) :
    updates = s.pendingUpdates b ∧ (∀ o ∈ wb, o.key ≠ .highestCommittedBlock) ∧
      (updates.isSome = true → (s .committedValidatorSet).isSome = true) ∧
      ∀ t : BlockTree, t.write wb .committedValidatorSet = validatorSetAfter s t updates := by
  simp only [commitValidatorSetUpdates, Result.bind_eq_ok] at h
  obtain ⟨status, hstatus, h⟩ := h
  cases status with
  | pending updates =>
    simp only [Result.bind_eq_ok, kv_committedValidatorSet_eq_ok, Result.pure_eq,
      Except.ok.injEq, Prod.mk.injEq] at h
    obtain ⟨vs, hvs, hwb, rfl⟩ := h
    have hwb : validatorSetOps target height vs updates = wb := hwb
    refine ⟨by simp [pendingUpdates, hstatus], ?_, fun _ => by simp [hvs], fun t => ?_⟩
    · intro o ho hkey
      rw [← hwb] at ho
      have hcases := key_of_mem_validatorSetOps ho
      simp [hkey] at hcases
    · have hmem : Op.set .committedValidatorSet (vs.applyUpdates updates) ∈
          validatorSetOps target height vs updates := by
        simp [validatorSetOps]
      have hwrite := Store.write_of_unique t hmem fun o ho => eq_of_key_validatorSetOps hmem ho
      rw [hwb] at hwrite
      simp only [validatorSetAfter, hvs, Option.map_some]
      exact hwrite
  | none | committed =>
    obtain ⟨rfl, rfl⟩ : [] = wb ∧ none = updates := by simpa using h
    exact ⟨by simp [pendingUpdates, hstatus], by simp, by simp, fun _ => rfl⟩

/-- The round of `b` commits `b`, and returns its pending updates. -/
theorem commitBlock_eq_ok {fuel : Nat} {target b : CryptoHash}
    {round : WriteBatch × CryptoHash × Option ValidatorSetUpdates}
    (h : commitBlock s fuel target b = .ok round) :
    round.1.committedBlocks = [b] ∧ round.2 = (b, s.pendingUpdates b) ∧
      (round.2.2.isSome = true → (s .committedValidatorSet).isSome = true) ∧
      ∀ t : BlockTree, t.write round.1 .committedValidatorSet =
        validatorSetAfter s t round.2.2 := by
  obtain ⟨height, siblings, appState, validatorSet, updates, -, hsiblings, happState,
    hvalidatorSet, rfl⟩ := of_commitBlock h
  obtain ⟨hupdates, hnotHighest, hsome, hwrite⟩ := commitValidatorSetUpdates_eq_ok hvalidatorSet
  -- Neither the siblings nor the app state are about what is committed.
  have hblocks : ∀ o ∈ WriteBatch.setBlockAtHeight height b ++ siblings ++ appState,
      o.key ≠ .highestCommittedBlock ∧ o.key ≠ .committedValidatorSet := by
    intro o ho
    rcases List.mem_append.mp ho with ho | ho
    · rcases List.mem_append.mp ho with ho | ho
      · obtain rfl := List.mem_singleton.mp ho
        constructor <;> intro hkey <;> cases hkey
      · rcases cases_of_mem_deleteSiblings hsiblings ho with ⟨-, hblock⟩ | ⟨p, hp⟩
        · constructor <;> intro hkey <;> simp [hkey, Var.block?] at hblock
        · constructor <;> simp [hp]
    · obtain ⟨appStateUpdates, -, ho | rfl⟩ := (mem_commitAppStateUpdates happState).mp ho
      · obtain ⟨key, hk⟩ := set_of_mem_applyAppStateUpdates ho
        constructor <;> simp [hk]
      · constructor <;> intro hkey <;> cases hkey
  refine ⟨?_, by rw [hupdates], hsome, fun t => ?_⟩
  · rw [WriteBatch.committedBlocks_append, WriteBatch.committedBlocks_append,
      WriteBatch.committedBlocks_eq_nil fun o ho => (hblocks o ho).1,
      WriteBatch.committedBlocks_eq_nil hnotHighest]
    rfl
  · rw [Store.write_append, Store.write_of_notMem _ fun o ho hk => ?_, Store.write_append,
      hwrite]
    · cases updates with
      | some updates => rfl
      | none => exact Store.write_of_notMem t fun o ho hk => (hblocks o ho).2 hk.symm
    · obtain rfl := List.mem_singleton.mp ho
      cases hk

/-! ## A whole commit -/

theorem rounds_eq_ok {fuel : Nat} {target : CryptoHash} {us : List CryptoHash}
    {rounds : List (WriteBatch × CryptoHash × Option ValidatorSetUpdates)}
    (h : us.mapM (commitBlock s fuel target) = .ok rounds) :
    WriteBatch.committedBlocks (rounds.flatMap Prod.fst) = us ∧
      rounds.map Prod.snd = us.map (fun b => (b, s.pendingUpdates b)) ∧
      ((us.filterMap s.pendingUpdates).getLast?.isSome = true →
        (s .committedValidatorSet).isSome = true) ∧
      ∀ t : BlockTree, t.write (rounds.flatMap Prod.fst) .committedValidatorSet =
        validatorSetAfter s t (us.filterMap s.pendingUpdates).getLast? := by
  induction us generalizing rounds with
  | nil =>
    obtain rfl : [] = rounds := by simpa using h
    exact ⟨rfl, rfl, by simp, fun _ => rfl⟩
  | cons b us ih =>
    obtain ⟨round, rounds', hround, hrounds, rfl⟩ := Result.mapM_cons_eq_ok.mp h
    obtain ⟨hblock, hsnd, hsome, hwrite⟩ := commitBlock_eq_ok hround
    obtain ⟨hblocks, hsnds, hsomes, hwrites⟩ := ih hrounds
    have hupdates : round.2.2 = s.pendingUpdates b := by rw [hsnd]
    rw [hupdates] at hsome hwrite
    refine ⟨?_, by rw [List.map_cons, hsnd, hsnds, List.map_cons], ?_, fun t => ?_⟩
    · rw [List.flatMap_cons, WriteBatch.committedBlocks_append, hblock, hblocks]
      rfl
    · intro hlast
      cases hb : s.pendingUpdates b with
      | some updates => exact hsome (by rw [hb]; rfl)
      | none =>
        rw [List.filterMap_cons_none hb] at hlast
        exact hsomes hlast
    · rw [List.flatMap_cons, Store.write_append, hwrites]
      -- The last of the updates is among those of the later rounds, if these have any.
      cases hb : s.pendingUpdates b with
      | none =>
        rw [List.filterMap_cons_none hb]
        cases (us.filterMap s.pendingUpdates).getLast? with
        | some updates => rfl
        | none =>
          have hround := hwrite t
          rwa [hb] at hround
      | some updates =>
        rw [List.filterMap_cons_some hb, List.getLast?_cons]
        cases (us.filterMap s.pendingUpdates).getLast? with
        | some updates' => rfl
        | none =>
          have hround := hwrite t
          rwa [hb] at hround

variable {fuel : Nat} {justify : PhaseCertificate} {wb : WriteBatch}
variable {updates : Option ValidatorSetUpdates}

/-- An update commits what its commit does. -/
theorem committedBlocks_updateBatch {highest : PhaseCertificate} {new : Option PhaseCertificate}
    {commitBatch : WriteBatch} :
    WriteBatch.committedBlocks
      ((if highest.view < justify.view then WriteBatch.setHighestPc justify else []) ++
        new.elim [] WriteBatch.setLockedPc ++ commitBatch ++
        (if justify.phase = .decide then WriteBatch.setValidatorSetUpdateDecided true else [])) =
      commitBatch.committedBlocks := by
  have hhead : WriteBatch.committedBlocks ((if highest.view < justify.view then
      WriteBatch.setHighestPc justify else []) ++ new.elim [] WriteBatch.setLockedPc) = [] :=
    WriteBatch.committedBlocks_eq_nil fun o ho hk =>
      ne_key_of_mem_highestAndLock rfl o ho hk.symm
  have hdecided : WriteBatch.committedBlocks (if justify.phase = .decide then
      WriteBatch.setValidatorSetUpdateDecided true else []) = [] := by
    split <;> rfl
  rw [WriteBatch.committedBlocks_append, WriteBatch.committedBlocks_append, hhead, hdecided,
    List.nil_append, List.append_nil]

/-- `update` returns the last of the updates that it puts into effect, and applies it to the
validator set that was committed before. -/
theorem updates_updateBatch (h : s.updateBatch fuel justify = .ok (wb, updates)) :
    updates = (s.committedUpdates wb).getLast? ∧
      (updates.isSome = true → (s .committedValidatorSet).isSome = true) ∧
      s.write wb .committedValidatorSet = validatorSetAfter s s updates := by
  obtain ⟨highest, new, target, commitBatch, committed, -, -, -, hcommit, hnone, rfl, rfl⟩ :=
    commit_of_updateBatch h
  rw [committedUpdates, committedBlocks_updateBatch,
    write_updateBatch_of_not_isProgress (v := .committedValidatorSet) rfl (by decide)]
  cases target with
  | none =>
    obtain ⟨rfl, rfl⟩ := hnone rfl
    exact ⟨rfl, nofun, rfl⟩
  | some target =>
    have hcommit := hcommit target rfl
    simp only [commit, kv_highestCommittedBlockHeight, Result.ok_bind, Result.bind_eq_ok,
      Result.pure_eq, Except.ok.injEq, Prod.mk.injEq] at hcommit
    obtain ⟨us, -, rounds, hrounds, rfl, rfl⟩ := hcommit
    obtain ⟨hblocks, hsnd, hsome, hwrite⟩ := rounds_eq_ok hrounds
    have hlast : (rounds.map Prod.snd).reverse.findSome? Prod.snd =
        (us.reverse.filterMap s.pendingUpdates).getLast? := by
      rw [hsnd, ← List.getLast?_filterMap, List.filterMap_map]
      rfl
    rw [hblocks, hlast]
    exact ⟨rfl, hsome, hwrite s⟩

end BlockTree
end HotStuffRs
