import HotStuffRs.BlockTree.Initial

/-
Committing a chain at once, and block by block.
-/

namespace HotStuffRs
namespace BlockTree

open Forest Kv
open Result (Eventually)

variable {s : BlockTree}

/-! ## With enough fuel a commit succeeds -/

theorem eventually_deleteBranch (wf : s.WellFormed) (root : CryptoHash) :
    ∃ wb, Eventually (fun fuel => deleteBranch s fuel root) wb := by
  obtain ⟨branch, hbranch⟩ := eventually_depthFirst wf [root]
  simp only [deleteBranch, blocksInBranch]
  exact ⟨_, hbranch.map fun branch => branch.flatMap (deleteBranchBlock s)⟩

theorem eventually_deleteSiblings (wf : s.WellFormed) {b : CryptoHash} (hb : s.Stored b) :
    ∃ wb, Eventually (fun fuel => deleteSiblings s fuel b) wb := by
  obtain ⟨justify, hjustify⟩ := Option.isSome_iff_exists.mp hb
  have hchild : b ∈ s.childrenOf justify.block :=
    (wf.mem_children _ _).mpr (up_eq_some.mpr ⟨justify, hjustify, rfl⟩)
  obtain ⟨children, hchildren⟩ : ∃ cs, s (.blockToChildren justify.block) = some cs := by
    cases hc : s (.blockToChildren justify.block) with
    | none => simp [childrenOf, hc] at hchild
    | some cs => exact ⟨cs, rfl⟩
  have hroots : ∀ root ∈ children.filter (· ≠ b),
      ∃ wb, Eventually (fun fuel => deleteBranch s fuel root) wb :=
    fun root _ => eventually_deleteBranch wf root
  obtain ⟨deletions, hdeletions⟩ := Eventually.mapM hroots
  simp only [deleteSiblings, kv_blockJustify_eq_ok.mpr hjustify, kv_children_eq_ok.mpr hchildren,
    Result.ok_bind]
  exact ⟨_, hdeletions.map
    fun deletions => deletions.flatten ++ WriteBatch.setChildren justify.block [b]⟩

theorem eventually_commitBlock (wf : s.WellFormed) (hvs : (s .committedValidatorSet).isSome = true)
    {b : CryptoHash} (hb : s.Stored b) (target : CryptoHash) :
    ∃ round, Eventually (fun fuel => commitBlock s fuel target b) round := by
  obtain ⟨height, hheight⟩ := wf.exists_height hb
  obtain ⟨vs, hvs⟩ := Option.isSome_iff_exists.mp hvs
  obtain ⟨siblings, hsiblings⟩ := eventually_deleteSiblings wf hb
  obtain ⟨appState, happState⟩ : ∃ wb, commitAppStateUpdates s b = .ok wb := by
    simp only [commitAppStateUpdates, kv_pendingAppStateUpdates, Result.ok_bind]
    cases s (.pendingAppStateUpdates b) <;> simp
  obtain ⟨validatorSet, hvalidatorSet⟩ :
      ∃ r, commitValidatorSetUpdates s target b height = .ok r := by
    simp only [commitValidatorSetUpdates, kv_validatorSetUpdatesStatus, Result.ok_bind]
    cases (s (.validatorSetUpdatesStatus b)).getD .none with
    | pending updates => simp [kv_committedValidatorSet_eq_ok.mpr hvs]
    | none | committed => simp
  simp only [commitBlock, kv_blockHeight, Result.ok_bind, hheight]
  exact ⟨_, hsiblings.bind <| (Eventually.const happState).bind <|
    (Eventually.const hvalidatorSet).bind (.const rfl)⟩

/-- The rounds of a commit of `target` along its walk. -/
theorem eventually_commit {target : CryptoHash} {us : List CryptoHash}
    {rounds : List (WriteBatch × CryptoHash × Option ValidatorSetUpdates)}
    (walk : Walk s s.committedHeight (some target) us)
    (hrounds : Eventually (fun fuel => us.reverse.mapM (commitBlock s fuel target)) rounds) :
    Eventually (fun fuel => commit s fuel target)
      (rounds.flatMap Prod.fst, rounds.map Prod.snd) := by
  have hwalk : Eventually (fun fuel => uncommittedFrom s s.committedHeight fuel (some target)) us :=
    ⟨us.length + 1, fun fuel hfuel => walk.uncommittedFrom hfuel⟩
  simp only [commit, kv_highestCommittedBlockHeight, Result.ok_bind]
  exact hwalk.bind (hrounds.map _)

/-! ## After the first block of a chain -/

section

variable {b : CryptoHash} {wb : WriteBatch}

theorem not_delete_committedValidatorSet {target : CryptoHash} {us : List CryptoHash}
    (h : Commits s target us wb) : .delete .committedValidatorSet ∉ wb := by
  intro ho
  obtain ⟨b, -, ho⟩ := (h.mem _).mp ho
  cases ho with
  | prune _ ho =>
    have hblock := (delete_of_mem_deleteBranchBlock ho).2
    cases hblock
  | appState _ ho =>
    obtain ⟨key, hk⟩ := set_of_mem_applyAppStateUpdates ho
    cases hk
  | validatorSet _ _ _ ho => simp [validatorSetOps] at ho

/-- Committing `b` alone leaves the blocks that descend from it as they are. -/
theorem Commits.descendant (wf : s.WellFormed) (h : Commits s b [b] wb) {x : CryptoHash}
    (hx : Extends s.up x b) (hne : x ≠ b) {v : Var} (hv : v.block? = some x) :
    s.write wb v = s v := by
  refine h.kept hv (fun c hc => ?_) (fun c hc p hp => ?_) (fun c hc => ?_) ?_
  · obtain rfl := List.mem_singleton.mp hc
    rintro ⟨p, sibling, hp, hsibling, hsib, hxs⟩
    exact hsib (wf.acyclic.eq_of_siblings hsibling hp hxs hx)
  · obtain rfl := List.mem_singleton.mp hc
    rintro rfl
    obtain rfl := Option.some.inj hv
    exact wf.acyclic.not_extends_parent hp hx
  · obtain rfl := List.mem_singleton.mp hc
    rintro rfl
    exact hne (Option.some.inj hv).symm
  · rintro c _ updates _ rfl
    exact hne (Option.some.inj hv).symm

/-- The children list of `b` itself stays, too. -/
theorem Commits.childrenOf_descendant (wf : s.WellFormed) (h : Commits s b [b] wb)
    {x : CryptoHash} (hx : Extends s.up x b) : (childrenOf (s.write wb)) x = s.childrenOf x := by
  have heq : s.write wb (.blockToChildren x) = s (.blockToChildren x) := by
    by_cases hne : x = b
    · subst hne
      refine h.children_kept (h.not_prunes wf hx) fun c hc hup => ?_
      obtain rfl := List.mem_singleton.mp hc
      exact wf.acyclic.not_extends_parent hup (.refl _)
    · exact h.descendant wf hx hne rfl
  rw [childrenOf, heq]
  rfl

variable {x : CryptoHash}

theorem Commits.deleteBranch_descendant (wf : s.WellFormed) (h : Commits s b [b] wb)
    (hx : Extends s.up x b) (hne : x ≠ b) {fuel : Nat} {deletions : WriteBatch}
    (hdelete : deleteBranch s fuel x = .ok deletions) :
    deleteBranch (s.write wb) fuel x = .ok deletions := by
  simp only [deleteBranch, Result.bind_eq_ok, Result.pure_eq, Except.ok.injEq] at hdelete ⊢
  obtain ⟨branch, hbranch, rfl⟩ := hdelete
  have hmem : ∀ y ∈ branch, Extends s.up y b ∧ y ≠ b := by
    intro y hy
    have hyx := (mem_blocksInBranch wf hbranch).mp hy
    refine ⟨hyx.trans hx, ?_⟩
    rintro rfl
    exact hne (wf.acyclic.antisymm hyx hx)
  refine ⟨branch, depthFirst_congr hbranch fun y hy => h.childrenOf_descendant wf (hmem y hy).1, ?_⟩
  refine List.flatMap_congr fun y hy => ?_
  simp only [deleteBranchBlock, kv_blockDataLen, h.descendant wf (hmem y hy).1 (hmem y hy).2
    (v := .blockDataLen y) rfl]

theorem Commits.deleteSiblings_descendant (wf : s.WellFormed) (h : Commits s b [b] wb)
    (hx : Extends s.up x b) (hne : x ≠ b) {fuel : Nat} {deletions : WriteBatch}
    (hdelete : deleteSiblings s fuel x = .ok deletions) :
    deleteSiblings (s.write wb) fuel x = .ok deletions := by
  simp only [deleteSiblings, Result.bind_eq_ok, kv_blockJustify_eq_ok, kv_children_eq_ok] at hdelete ⊢
  obtain ⟨justify, hjustify, children, hchildren, siblings, hsiblings, hdelete⟩ := hdelete
  have hup : s.up x = some justify.block := up_eq_some.mpr ⟨justify, hjustify, rfl⟩
  have hparent : Extends s.up justify.block b := by
    rcases Extends.iff_parent.mp hx with rfl | ⟨p, hp, hpb⟩
    · exact (hne rfl).elim
    · rwa [Option.some.inj (hup.symm.trans hp)]
  refine ⟨justify, ?_, children, ?_, siblings, Result.mapM_mono (fun c hc l hl => ?_) hsiblings,
    hdelete⟩
  · rw [h.descendant wf hx hne rfl]
    exact hjustify
  · have hmem : s.childrenOf justify.block = children := by
      rw [childrenOf, hchildren]
      rfl
    have hmem' := (h.childrenOf_descendant wf hparent).trans hmem
    cases hc : s.write wb (.blockToChildren justify.block) with
    | some cs => rw [← hmem', childrenOf, hc]; rfl
    | none =>
      -- The children list is not empty, as `x` is in it.
      have hxc : x ∈ children := hmem ▸ (wf.mem_children _ _).mpr hup
      rw [← hmem', childrenOf, hc] at hxc
      cases hxc
  · have hcp : s.up c = some justify.block := by
      rw [← wf.mem_children, childrenOf, hchildren]
      exact (List.mem_filter.mp hc).1
    refine h.deleteBranch_descendant wf (.of_parent hcp hparent) ?_ hl
    rintro rfl
    exact wf.acyclic.not_extends_parent hcp hparent

/-- A later round of the same chain does the same after `b` was committed. -/
theorem Commits.commitBlock_descendant (wf : s.WellFormed) (h : Commits s b [b] wb)
    (hvs : s.write wb .committedValidatorSet = s .committedValidatorSet)
    (hx : Extends s.up x b) (hne : x ≠ b) {fuel : Nat} {target : CryptoHash}
    {round : WriteBatch × CryptoHash × Option ValidatorSetUpdates}
    (hcommit : commitBlock s fuel target x = .ok round) :
    commitBlock (s.write wb) fuel target x = .ok round := by
  have hkept : ∀ v : Var, v.block? = some x → s.write wb v = s v :=
    fun v hv => h.descendant wf hx hne hv
  have happState : commitAppStateUpdates (s.write wb) x = commitAppStateUpdates s x := by
    simp only [commitAppStateUpdates, kv_pendingAppStateUpdates,
      hkept (.pendingAppStateUpdates x) rfl]
  have hvalidatorSet : ∀ height, commitValidatorSetUpdates (s.write wb) target x height =
      commitValidatorSetUpdates s target x height := by
    intro height
    simp only [commitValidatorSetUpdates, kv_validatorSetUpdatesStatus,
      hkept (.validatorSetUpdatesStatus x) rfl, KVGet.committedValidatorSet,
      KVGet.expect_congr hvs]
  simp only [commitBlock, kv_blockHeight, Result.ok_bind, hkept (.blockHeight x) rfl, happState,
    hvalidatorSet] at hcommit ⊢
  cases hheight : s (.blockHeight x) with
  | none => simp [hheight] at hcommit
  | some height =>
    simp only [hheight, Result.bind_eq_ok] at hcommit ⊢
    obtain ⟨siblings, hsiblings, hrest⟩ := hcommit
    exact ⟨siblings, h.deleteSiblings_descendant wf hx hne hsiblings, hrest⟩

end

/-! ## Chains -/

/-- Commit `target` and its uncommitted ancestors by one batch. -/
def commitAtOnce (s : BlockTree) (fuel : Nat) (target : CryptoHash) : Result BlockTree := do
  let (wb, _) ← commit s fuel target
  return s.write wb

/-- Commit `blocks` one after the other, each by a batch of its own. -/
def commitEach (s : BlockTree) (fuel : Nat) : List CryptoHash → Result BlockTree
  | [] => return s
  | b :: bs => do
    let (wb, _) ← commit s fuel b
    commitEach (s.write wb) fuel bs

/-- The height of `c` is one above that of `p`. -/
def HeightsGrow (s : BlockTree) (p c : CryptoHash) : Prop :=
  ∃ height height', s (.blockHeight p) = some height ∧ s (.blockHeight c) = some height' ∧
    height'.val = height.val + 1

/-- `b` is uncommitted but its parent is not, and `bs` are above it, each on the one before. -/
structure Chain (s : BlockTree) (b : CryptoHash) (bs : List CryptoHash) : Prop where
  wf : s.WellFormed
  validatorSet : (s .committedValidatorSet).isSome = true
  stored : s.Stored b
  walk : Walk s s.committedHeight (some b) [b]
  links : (b :: bs).IsChain fun p c => s.up c = some p
  heights : (b :: bs).IsChain (HeightsGrow s)

namespace Chain

variable {b b' target : CryptoHash} {bs : List CryptoHash} {wb : WriteBatch}

theorem descendant (h : Chain s b bs) {x : CryptoHash} (hx : x ∈ bs) :
    Extends s.up x b ∧ x ≠ b := by
  cases bs with
  | nil => cases hx
  | cons b' bs =>
    have hxb' := Extends.of_isChain (List.isChain_of_isChain_cons h.links) hx
    have hup : s.up b' = some b := h.links.rel_head? rfl
    refine ⟨hxb'.trans (.parent hup), ?_⟩
    rintro rfl
    exact h.wf.acyclic.not_extends_parent hup hxb'

/-- Committing the first block of a chain is a round of its own. -/
theorem eventually_commit (h : Chain s b bs) :
    ∃ round, Result.Eventually (fun fuel => commitBlock s fuel b b) round ∧
      Result.Eventually (fun fuel => commit s fuel b) (round.1, [round.2]) ∧
      Commits s b [b] round.1 := by
  obtain ⟨round, hround⟩ := eventually_commitBlock h.wf h.validatorSet h.stored b
  have hrounds : Result.Eventually (fun fuel => [b].reverse.mapM (commitBlock s fuel b)) [round] := by
    simp only [List.reverse_singleton, List.mapM_cons, List.mapM_nil]
    exact hround.bind (.const rfl)
  have hcommit := BlockTree.eventually_commit h.walk hrounds
  simp only [List.flatMap_singleton, List.map_singleton] at hcommit
  refine ⟨round, hround, hcommit, ?_⟩
  obtain ⟨n, hn⟩ := hcommit
  obtain ⟨us, hus⟩ := commits_of_commit h.wf (hn n le_rfl)
  rwa [h.walk.unique hus.walk]

/-- What is left of a chain is a chain after its first block was committed. -/
theorem tail (h : Chain s b (b' :: bs)) (hcommits : Commits s b [b] wb) :
    Chain (s.write wb) b' bs := by
  have hkept : ∀ x ∈ b' :: bs, ∀ v : Var, v.block? = some x → s.write wb v = s v :=
    fun x hx v hv => hcommits.descendant h.wf (h.descendant hx).1 (h.descendant hx).2 hv
  have hstored : Stored (s.write wb) b' := by
    rw [Stored, hkept b' List.mem_cons_self _ rfl]
    exact Stored.of_up (h.links.rel_head? rfl)
  have hb : ∀ v : Var, v.isField = true → v.block? = some b → s.write wb v = s v := fun v hf hv =>
    hcommits.field_write hf hv (hcommits.not_prunes h.wf (.refl b))
  refine ⟨hcommits.wellFormed h.wf, Store.isSome_write s h.validatorSet
    (not_delete_committedValidatorSet hcommits), hstored, ?_, ?_, ?_⟩
  · obtain ⟨height, height', hheight, hheight', hgrow⟩ := h.heights.rel_head? (y := b') rfl
    have hmin : committedHeight (s.write wb) = some height := by
      rw [committedHeight, hcommits.highestCommittedBlock_write (List.cons_ne_nil _ _),
        Option.bind_some, hb (.blockHeight b) rfl rfl]
      exact hheight
    have hparent : (parent (s.write wb)) b' = some b := by
      rw [BlockTree.parent, hkept b' List.mem_cons_self (.blockJustify b') rfl]
      refine h.wf.parent_of_up (h.links.rel_head? rfl) ?_
      rintro rfl
      exact h.wf.genesis h.stored
    refine .step (fun min hm => ⟨height', ?_, ?_⟩) ?_
    · rw [hkept b' List.mem_cons_self _ rfl]
      exact hheight'
    · obtain rfl := Option.some.inj (hmin.symm.trans hm)
      exact Fin.lt_def.mpr (by omega)
    · rw [hparent]
      refine .stop hmin ?_ le_rfl
      rw [hb _ rfl rfl]
      exact hheight
  · refine (List.isChain_of_isChain_cons h.links).imp_of_mem_imp fun p c _ hc hup => ?_
    rw [up, hkept c hc _ rfl]
    exact hup
  · refine (List.isChain_of_isChain_cons h.heights).imp_of_mem_imp fun p c hp hc hgrow => ?_
    rwa [HeightsGrow, hkept p hp _ rfl, hkept c hc _ rfl]

/-- Committing the first block changes the updates status of no block below it, and marks
its own updates as committed. -/
theorem status_write (h : Chain s b bs) (hcommits : Commits s b [b] wb) {x : CryptoHash}
    (hx : Extends s.up b x) (hne : b ≠ x) :
    s.write wb (.validatorSetUpdatesStatus x) = s (.validatorSetUpdatesStatus x) :=
  hcommits.status_write_of_not_prunes (hcommits.not_prunes h.wf hx) fun _ _ _ _ => hne.symm

theorem status_write_self (h : Chain s b bs) (hcommits : Commits s b [b] wb)
    {updates : ValidatorSetUpdates}
    (hpending : s (.validatorSetUpdatesStatus b) = some (.pending updates)) :
    s.write wb (.validatorSetUpdatesStatus b) = some .committed := by
  obtain ⟨height, hheight⟩ := h.wf.exists_height h.stored
  obtain ⟨vs, hvs⟩ := Option.isSome_iff_exists.mp h.validatorSet
  exact hcommits.validatorSetOps_write h.wf (List.mem_singleton_self b) hpending
    (fun x hx hne => (hne (List.mem_singleton.mp hx)).elim) hheight hvs
    (o := .set (.validatorSetUpdatesStatus b) .committed) (by simp [validatorSetOps])

/-- The way from the second block of a chain down is what it was before the commit. -/
theorem extends_write (h : Chain s b (b' :: bs)) (hcommits : Commits s b [b] wb) {x : CryptoHash}
    (hx : Extends s.up b x) : Extends (up (s.write wb)) b' x := by
  have hup : s.up b' = some b := h.links.rel_head? rfl
  refine (Extends.of_parent hup hx).congr fun y hy _ => ?_
  rcases Extends.iff_parent.mp hy with rfl | ⟨p, hp, hpy⟩
  · rw [up, hcommits.descendant h.wf (h.descendant List.mem_cons_self).1
      (h.descendant List.mem_cons_self).2 rfl]
    rfl
  · obtain rfl := Option.some.inj (hup.symm.trans hp)
    rw [up, hcommits.field_write rfl rfl (hcommits.not_prunes h.wf hpy) (v := .blockJustify y)]
    rfl

/-- Committing a chain block by block succeeds, and all pending updates in it end up as
committed. -/
theorem eventually_commitEach (h : Chain s b bs) :
    ∃ each, Result.Eventually (fun fuel => commitEach s fuel (b :: bs)) each ∧
      (∀ x, Extends s.up b x → b ≠ x →
        each (.validatorSetUpdatesStatus x) = s (.validatorSetUpdatesStatus x)) ∧
      ∀ x ∈ b :: bs, ∀ updates, s (.validatorSetUpdatesStatus x) = some (.pending updates) →
        each (.validatorSetUpdatesStatus x) = some .committed := by
  induction bs generalizing s b with
  | nil =>
    obtain ⟨round, -, hcommit, hcommits⟩ := h.eventually_commit
    refine ⟨s.write round.1, hcommit.bind (.const rfl), fun x hx hne => h.status_write hcommits hx hne,
      fun x hx updates hpending => ?_⟩
    obtain rfl := List.mem_singleton.mp hx
    exact h.status_write_self hcommits hpending
  | cons b' bs ih =>
    obtain ⟨round, -, hcommit, hcommits⟩ := h.eventually_commit
    obtain ⟨each, heach, hbelow, hchain⟩ := ih (h.tail hcommits)
    have hup : s.up b' = some b := h.links.rel_head? rfl
    have hbelow' : ∀ x, Extends s.up b x →
        each (.validatorSetUpdatesStatus x) = s.write round.1 (.validatorSetUpdatesStatus x) := by
      refine fun x hx => hbelow x (h.extends_write hcommits hx) ?_
      rintro rfl
      exact h.wf.acyclic.not_extends_parent hup hx
    refine ⟨each, hcommit.bind heach, fun x hx hne => ?_, fun x hx updates hpending => ?_⟩
    · rw [hbelow' x hx, h.status_write hcommits hx hne]
    · rcases List.mem_cons.mp hx with rfl | hx
      · rw [hbelow' x (.refl x), h.status_write_self hcommits hpending]
      · refine hchain x hx updates ?_
        rw [hcommits.descendant h.wf (h.descendant hx).1 (h.descendant hx).2 rfl]
        exact hpending

/-- A round of a block without pending validator set updates does not depend on the target. -/
theorem commitBlock_target {x target' : CryptoHash} (fuel : Nat)
    (hx : ∀ updates, s (.validatorSetUpdatesStatus x) ≠ some (.pending updates)) :
    commitBlock s fuel target x = commitBlock s fuel target' x := by
  have hvalidatorSet : ∀ height, commitValidatorSetUpdates s target x height =
      commitValidatorSetUpdates s target' x height := by
    intro height
    simp only [commitValidatorSetUpdates, kv_validatorSetUpdatesStatus, Result.ok_bind]
    cases hstatus : s (.validatorSetUpdatesStatus x) with
    | none => rfl
    | some status =>
      cases status with
      | pending updates => exact (hx updates hstatus).elim
      | none | committed => rfl
  simp only [commitBlock, hvalidatorSet]

theorem committedValidatorSet_write (hcommits : Commits s b [b] wb)
    (hb : ∀ updates, s (.validatorSetUpdatesStatus b) ≠ some (.pending updates)) :
    s.write wb .committedValidatorSet = s .committedValidatorSet := by
  refine Store.write_of_notMem s fun o ho hkey => ?_
  obtain ⟨c, hc, ho⟩ := (hcommits.mem o).mp ho
  cases ho with
  | blockAtHeight => cases hkey
  | prune _ ho =>
    have hblock := (delete_of_mem_deleteBranchBlock ho).2
    rw [← hkey] at hblock
    cases hblock
  | children => cases hkey
  | appState _ ho =>
    obtain ⟨key, hk⟩ := set_of_mem_applyAppStateUpdates ho
    rw [hk] at hkey
    cases hkey
  | deletePending => cases hkey
  | validatorSet hpending =>
    obtain rfl := List.mem_singleton.mp hc
    exact hb _ hpending
  | highestCommittedBlock => cases hkey

/-- If no block below the last has pending validator set updates, the batches of the single
commits are the rounds of a commit of the last block. -/
theorem eventually_rounds (h : Chain s b bs) (hlast : (b :: bs).getLast? = some target)
    (hpending : ∀ x ∈ b :: bs, x ≠ target →
      ∀ updates, s (.validatorSetUpdatesStatus x) ≠ some (.pending updates)) :
    ∃ rounds, Result.Eventually (fun fuel => (b :: bs).mapM (commitBlock s fuel target)) rounds ∧
      Result.Eventually (fun fuel => commitEach s fuel (b :: bs))
        (s.write (rounds.flatMap Prod.fst)) := by
  induction bs generalizing s b with
  | nil =>
    obtain rfl : b = target := by simpa using hlast
    obtain ⟨round, hround, hcommit, -⟩ := h.eventually_commit
    refine ⟨[round], ?_, ?_⟩
    · simp only [List.mapM_cons, List.mapM_nil]
      exact hround.bind (.const rfl)
    · rw [List.flatMap_singleton]
      exact hcommit.bind (.const rfl)
  | cons b' bs ih =>
    obtain ⟨round, hround, hcommit, hcommits⟩ := h.eventually_commit
    have hlast' : (b' :: bs).getLast? = some target := by simpa using hlast
    have hne : b ≠ target := by
      rintro rfl
      exact (h.descendant (List.mem_of_getLast? hlast')).2 rfl
    have hb := hpending b List.mem_cons_self hne
    obtain ⟨rounds, hrounds, heach⟩ := ih (h.tail hcommits) hlast' fun x hx hxt updates => by
      rw [hcommits.descendant h.wf (h.descendant hx).1 (h.descendant hx).2 rfl]
      exact hpending x (List.mem_cons_of_mem _ hx) hxt updates
    -- The rounds of the other blocks are the same before and after the first commit.
    have hround' : ∀ x ∈ b' :: bs,
        ∃ round, Result.Eventually (fun fuel => commitBlock s fuel target x) round :=
      fun x hx => eventually_commitBlock h.wf h.validatorSet
        (Stored.of_extends (h.descendant hx).1 (h.descendant hx).2) target
    obtain ⟨rounds', hrounds'⟩ := Result.Eventually.mapM hround'
    obtain rfl : rounds' = rounds := by
      obtain ⟨n, hn⟩ := hrounds'
      refine Result.Eventually.unique ⟨n, fun fuel hfuel => ?_⟩ hrounds
      exact Result.mapM_mono (fun x hx round' hround' => hcommits.commitBlock_descendant h.wf
        (committedValidatorSet_write hcommits hb) (h.descendant hx).1 (h.descendant hx).2 hround')
        (hn fuel hfuel)
    have htarget : ∀ fuel, commitBlock s fuel target b = commitBlock s fuel b b :=
      fun fuel => commitBlock_target fuel hb
    refine ⟨round :: rounds', ?_, ?_⟩
    · simp only [List.mapM_cons (a := b), htarget]
      exact hround.bind (hrounds'.map (round :: ·))
    · rw [List.flatMap_cons, Store.write_append]
      exact hcommit.bind heach

end Chain

/-- The chain of a walk, oldest block first. -/
theorem chain_of_walk (wf : s.WellFormed) (hvs : (s .committedValidatorSet).isSome = true)
    {target : CryptoHash} {us : List CryptoHash} (walk : Walk s s.committedHeight (some target) us)
    (hne : us ≠ []) (hstored : s.Stored target) (hheights : us.reverse.IsChain (HeightsGrow s)) :
    ∃ b bs, us.reverse = b :: bs ∧ Chain s b bs := by
  obtain ⟨b, bs, hreverse⟩ := List.exists_cons_of_ne_nil (List.reverse_ne_nil_iff.mpr hne)
  refine ⟨b, bs, hreverse, wf, hvs, ?_, ?_, ?_, hreverse ▸ hheights⟩
  · exact walk.stored_of_mem wf (fun _ h => Option.some.inj h ▸ hstored)
      (List.mem_reverse.mp (hreverse ▸ List.mem_cons_self))
  · have hus : us = bs.reverse ++ [b] := by
      rw [← List.reverse_reverse us, hreverse, List.reverse_cons]
    exact walk.of_append hus
  · rw [← hreverse, List.isChain_reverse]
    exact walk.isChain

/-- A commit of several blocks at once leaves the updates status of all but the last as it
was. -/
theorem Commits.status_kept {target : CryptoHash} {us : List CryptoHash} {wb : WriteBatch}
    (wf : s.WellFormed) (h : Commits s target us wb) {x : CryptoHash} (hx : x ∈ us)
    (hne : x ≠ target) :
    s.write wb (.validatorSetUpdatesStatus x) = s (.validatorSetUpdatesStatus x) :=
  h.status_write_of_not_prunes (h.not_prunes wf (h.walk.extends_of_mem rfl hx)) fun _ _ _ _ => hne

/-- Committing a chain at once comes to the same as committing it block by block exactly if
none of its blocks but the last has pending validator set updates. -/
theorem commitAtOnce_eq_commitEach_iff (wf : s.WellFormed)
    (hvs : (s .committedValidatorSet).isSome = true) {target : CryptoHash} {us : List CryptoHash}
    (hstored : s.Stored target) (walk : Walk s s.committedHeight (some target) us) (hne : us ≠ [])
    (hheights : us.reverse.IsChain (HeightsGrow s)) :
    ∃ atOnce each, Result.Eventually (fun fuel => commitAtOnce s fuel target) atOnce ∧
      Result.Eventually (fun fuel => commitEach s fuel us.reverse) each ∧
      (atOnce = each ↔ ∀ b ∈ us, b ≠ target →
        ∀ updates, s (.validatorSetUpdatesStatus b) ≠ some (.pending updates)) := by
  obtain ⟨b, bs, hreverse, chain⟩ := chain_of_walk wf hvs walk hne hstored hheights
  have hmem : ∀ x, x ∈ b :: bs ↔ x ∈ us := fun x => by rw [← hreverse, List.mem_reverse]
  have hlast : (b :: bs).getLast? = some target := by
    obtain ⟨rest, rfl⟩ := walk.eq_cons hne
    rw [← hreverse, List.reverse_cons, List.getLast?_concat]
  have hround : ∀ x ∈ us.reverse,
      ∃ round, Result.Eventually (fun fuel => commitBlock s fuel target x) round :=
    fun x hx => eventually_commitBlock wf hvs
      (walk.stored_of_mem wf (fun _ h => Option.some.inj h ▸ hstored) (List.mem_reverse.mp hx)) target
  obtain ⟨rounds, hrounds⟩ := Result.Eventually.mapM hround
  have hcommit := eventually_commit walk hrounds
  obtain ⟨each, heach, -, hcommitted⟩ := chain.eventually_commitEach
  refine ⟨s.write (rounds.flatMap Prod.fst), each, hcommit.bind (.const rfl), hreverse ▸ heach,
    fun heq x hx hxt updates hpending => ?_, fun hpending => ?_⟩
  · -- The batch leaves the status of `x` pending, the single commits do not.
    obtain ⟨n, hn⟩ := hcommit
    obtain ⟨us', hcommits⟩ := commits_of_commit wf (hn n le_rfl)
    obtain rfl := walk.unique hcommits.walk
    have hstatus := hcommits.status_kept wf hx hxt
    rw [heq, hcommitted x ((hmem x).mpr hx) updates hpending, hpending] at hstatus
    cases hstatus
  · obtain ⟨rounds', hrounds', heach'⟩ := chain.eventually_rounds hlast
      fun x hx => hpending x ((hmem x).mp hx)
    rw [← hreverse] at hrounds'
    rw [heach.unique heach', hrounds.unique hrounds']

/-! Two blocks that each add a validator, the second on top of the first. -/

def addValidator (validator : VerifyingKey) : ValidatorSetUpdates := UpdateSet.new.insert validator 1

def oneUpdate : BlockTree :=
  (initial UpdateSet.new ⟨ValidatorSet.new.put 1 1, ValidatorSet.new.put 1 1, none, true⟩).insert
    ⟨0, 1, .genesisPc, 0, []⟩ none (some (addValidator 2))

def twoUpdates : BlockTree :=
  oneUpdate.insert ⟨1, 2, ⟨7, 1, 1, .decide, []⟩, 0, []⟩ none (some (addValidator 3))

theorem wellFormed_oneUpdate : oneUpdate.WellFormed :=
  wellFormed_initial.insert (by decide) (.inl rfl) fun j hj => by
    rw [initial_of_block? rfl] at hj
    cases hj

theorem wellFormed_twoUpdates : twoUpdates.WellFormed := by
  refine wellFormed_oneUpdate.insert (by decide) (.inr ?_) fun j hj => ?_
  · rw [oneUpdate, stored_insert]
    exact .inl rfl
  · rw [oneUpdate, field_insert_of_ne rfl rfl (by decide), initial_of_block? rfl] at hj
    cases hj

theorem stored_twoUpdates : twoUpdates.Stored 2 := (stored_insert 2).mpr (.inl rfl)

theorem walk_twoUpdates : Walk twoUpdates twoUpdates.committedHeight (some 2) [2, 1] := by
  have h : uncommittedFrom twoUpdates twoUpdates.committedHeight 3 (some 2) = .ok [2, 1] := by
    decide +kernel
  exact walk_of_uncommittedFrom h

theorem heightsGrow_twoUpdates : [2, 1].reverse.IsChain (HeightsGrow twoUpdates) := by
  simp only [List.reverse_cons, List.reverse_nil, List.nil_append, List.singleton_append,
    List.isChain_pair]
  exact ⟨0, 1, by decide +kernel, by decide +kernel, rfl⟩

theorem commitAtOnce_eq_commitEach_iff_twoUpdates :
    ∃ atOnce each, Result.Eventually (fun fuel => commitAtOnce twoUpdates fuel 2) atOnce ∧
      Result.Eventually (fun fuel => commitEach twoUpdates fuel [1, 2]) each ∧
      atOnce ≠ each := by
  obtain ⟨atOnce, each, hatOnce, heach, hiff⟩ := commitAtOnce_eq_commitEach_iff
    wellFormed_twoUpdates (by decide +kernel) stored_twoUpdates walk_twoUpdates
    (List.cons_ne_nil _ _) heightsGrow_twoUpdates
  refine ⟨atOnce, each, hatOnce, heach, fun heq => ?_⟩
  exact hiff.mp heq 1 (by simp) (by decide) (addValidator 2) (by decide +kernel)

/-- Committed at once, the second update is applied to the set without the first. -/
theorem commitAtOnce_loses_update : ∃ s target us, s.WellFormed ∧
    (s .committedValidatorSet).isSome = true ∧ s.Stored target ∧
    Walk s s.committedHeight (some target) us ∧ us ≠ [] ∧
    us.reverse.IsChain (HeightsGrow s) ∧ ∃ atOnce each,
      commitAtOnce s 10 target = .ok atOnce ∧ commitEach s 10 us.reverse = .ok each ∧
      (atOnce .committedValidatorSet).map ValidatorSet.validators = some [1, 3] ∧
      (each .committedValidatorSet).map ValidatorSet.validators = some [1, 2, 3] := by
  refine ⟨twoUpdates, 2, [2, 1], wellFormed_twoUpdates, by decide +kernel, stored_twoUpdates,
    walk_twoUpdates, List.cons_ne_nil _ _, heightsGrow_twoUpdates, ?_⟩
  have hatOnce : (Result.ok? (commitAtOnce twoUpdates 10 2)).map
      (fun s => (s .committedValidatorSet).map ValidatorSet.validators) = some (some [1, 3]) := by
    decide +kernel
  have heach : (Result.ok? (commitEach twoUpdates 10 [1, 2])).map
      (fun s => (s .committedValidatorSet).map ValidatorSet.validators) = some (some [1, 2, 3]) := by
    decide +kernel
  obtain ⟨atOnce, hok, hvs⟩ := Option.map_eq_some_iff.mp hatOnce
  obtain ⟨each, hok', hvs'⟩ := Option.map_eq_some_iff.mp heach
  exact ⟨atOnce, each, Result.ok?_eq_some.mp hok, Result.ok?_eq_some.mp hok', hvs, hvs'⟩

end BlockTree
end HotStuffRs
