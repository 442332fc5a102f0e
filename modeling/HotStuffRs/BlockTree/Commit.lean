import HotStuffRs.BlockTree.Branch
import Mathlib.Data.List.Chain

/-
What committing a block writes.

`commit` walks from its target up to the first ancestor that is not above the highest
committed block, and then lets each block of the walk write its round of operations.
`Walk` is that walk, and `RoundOp` says which operations a round has; nothing is said of
their order, since most keys are written once.
-/

namespace HotStuffRs

/-- The block that a variable of a block is about. -/
def Var.block? : Var → Option CryptoHash
  | blockHeight b | blockJustify b | blockDataHash b | blockDataLen b | blockDatum b _
  | blockToChildren b | pendingAppStateUpdates b | validatorSetUpdatesStatus b => some b
  | _ => none

/-- Whether a variable is a field of a block, which nothing but its deletion changes. -/
def Var.isField : Var → Bool
  | blockHeight _ | blockJustify _ | blockDataHash _ | blockDataLen _ | blockDatum _ _ => true
  | _ => false

/-- Whether a variable only says how far the replica has come. -/
def Var.isProgress : Var → Bool
  | lockedPc | highestViewEntered | highestPc | newestBlock | highestTc
  | highestViewPhaseVoted => true
  | _ => false

theorem Var.block?_of_isProgress {v : Var} (h : v.isProgress = true) : v.block? = none := by
  cases v <;> first | rfl | cases h

theorem Var.isProgress_of_block? {v : Var} {b : CryptoHash} (h : v.block? = some b) :
    v.isProgress = false := by
  cases v <;> first | rfl | cases h

/-- The variables in which a commit sets values. -/
def Var.isCommitted : Var → Bool
  | blockAtHeight _ | blockToChildren _ | committedAppState _ | committedValidatorSet
  | previousValidatorSet | validatorSetUpdateBlockHeight | validatorSetUpdateDecided
  | validatorSetUpdatesStatus _ | highestCommittedBlock => true
  | _ => false

theorem Var.isCommitted_of_isField {v : Var} (h : v.isField = true) : v.isCommitted = false := by
  cases v <;> first | rfl | cases h

def Var.isDatum : Var → Bool
  | blockDatum _ _ => true
  | _ => false

namespace BlockTree

open Forest Kv

variable {s : BlockTree}

/-! ## The walk -/

/-- The blocks from `cursor` on, newest first, down to the first that is not above
`minHeight`. -/
inductive Walk (s : BlockTree) (minHeight : Option BlockHeight) :
    Option CryptoHash → List CryptoHash → Prop
  | root : Walk s minHeight none []
  | stop {b height min} (hmin : minHeight = some min) (hb : s (.blockHeight b) = some height)
      (hle : height ≤ min) : Walk s minHeight (some b) []
  | step {b us} (habove : ∀ min ∈ minHeight, ∃ height, s (.blockHeight b) = some height ∧
      min < height) (rest : Walk s minHeight (s.parent b) us) : Walk s minHeight (some b) (b :: us)

variable {minHeight : Option BlockHeight}

theorem walk_of_uncommittedFrom {fuel : Nat} {cursor : Option CryptoHash} {us : List CryptoHash}
    (h : uncommittedFrom s minHeight fuel cursor = .ok us) : Walk s minHeight cursor us := by
  induction fuel generalizing cursor us with
  | zero =>
    cases cursor with
    | none =>
      obtain rfl : [] = us := by simpa [uncommittedFrom] using h
      exact .root
    | some b => simp [uncommittedFrom] at h
  | succ fuel ih =>
    cases cursor with
    | none =>
      obtain rfl : [] = us := by simpa [uncommittedFrom] using h
      exact .root
    | some b =>
      cases minHeight with
      | none =>
        simp only [uncommittedFrom, kv_parent?, Result.pure_eq, Result.ok_bind, if_true,
          Result.bind_eq_ok, Except.ok.injEq] at h
        obtain ⟨rest, hrest, rfl⟩ := h
        exact .step (fun _ hmin => nomatch hmin) (ih hrest)
      | some min =>
        cases hb : s (.blockHeight b) with
        | none => simp [uncommittedFrom, hb] at h
        | some height =>
          simp only [uncommittedFrom, kv_blockHeight, hb, kv_parent?, Result.pure_eq,
            Result.ok_bind] at h
          by_cases hlt : min < height
          · simp only [hlt, decide_true, if_true, Result.bind_eq_ok, Except.ok.injEq] at h
            obtain ⟨rest, hrest, rfl⟩ := h
            exact .step (fun m hm => ⟨height, hb, Option.some.inj hm ▸ hlt⟩) (ih hrest)
          · obtain rfl : [] = us := by simpa [hlt] using h
            exact .stop rfl hb (not_lt.mp hlt)

theorem Walk.uncommittedFrom {cursor : Option CryptoHash} {us : List CryptoHash}
    (h : Walk s minHeight cursor us) {fuel : Nat} (hfuel : us.length < fuel) :
    uncommittedFrom s minHeight fuel cursor = .ok us := by
  induction h generalizing fuel with
  | root => cases fuel <;> rfl
  | @stop b height min hmin hb hle =>
    obtain ⟨fuel, rfl⟩ := Nat.exists_eq_succ_of_ne_zero (Nat.ne_of_gt hfuel)
    simp [BlockTree.uncommittedFrom, hmin, hb, not_lt.mpr hle]
  | @step b us habove rest ih =>
    obtain ⟨fuel, rfl⟩ := Nat.exists_eq_succ_of_ne_zero (Nat.ne_of_gt (Nat.zero_lt_of_lt hfuel))
    have hrest := ih (Nat.lt_of_succ_lt_succ hfuel)
    cases minHeight with
    | none => simp [BlockTree.uncommittedFrom, hrest]
    | some min =>
      obtain ⟨height, hb, hlt⟩ := habove min rfl
      simp [BlockTree.uncommittedFrom, hb, hlt, hrest]

theorem exists_walk (wf : s.WellFormed) (minHeight : Option BlockHeight) {b : CryptoHash}
    (hb : s.Stored b) : ∃ us, Walk s minHeight (some b) us := by
  induction b using wf.acyclic.induction with
  | _ b ih =>
    obtain ⟨height, hheight⟩ := wf.exists_height hb
    by_cases habove : ∀ min ∈ minHeight, min < height
    · have hrest : ∃ us, Walk s minHeight (s.parent b) us := by
        cases hp : s.parent b with
        | none => exact ⟨[], .root⟩
        | some p => exact ih p (up_of_parent hp) (wf.stored_of_parent hp)
      obtain ⟨us, hrest⟩ := hrest
      exact ⟨b :: us, .step (fun min hmin => ⟨height, hheight, habove min hmin⟩) hrest⟩
    · simp only [not_forall] at habove
      obtain ⟨min, hmin, hle⟩ := habove
      exact ⟨[], .stop hmin hheight (not_lt.mp hle)⟩

namespace Walk

variable {cursor : Option CryptoHash} {us : List CryptoHash}

theorem unique {us' : List CryptoHash} (h : Walk s minHeight cursor us)
    (h' : Walk s minHeight cursor us') : us = us' := by
  have hlt : us.length < us.length + us'.length + 1 := by omega
  have hlt' : us'.length < us.length + us'.length + 1 := by omega
  exact Except.ok.inj ((h.uncommittedFrom hlt).symm.trans (h'.uncommittedFrom hlt'))

theorem isChain (h : Walk s minHeight cursor us) : us.IsChain fun c p => s.up c = some p := by
  induction h with
  | root => exact .nil
  | stop => exact .nil
  | @step b us _ rest ih =>
    refine List.isChain_cons.mpr ⟨fun p hp => ?_, ih⟩
    cases hparent : s.parent b with
    | none =>
      rw [hparent] at rest
      cases rest
      cases hp
    | some q =>
      rw [hparent] at rest
      cases rest with
      | stop => cases hp
      | step =>
        obtain rfl := Option.some.inj hp
        exact up_of_parent hparent

/-- The walk from its last block ends there. -/
theorem of_append {us' : List CryptoHash} {b : CryptoHash} (h : Walk s minHeight cursor us)
    (hus : us = us' ++ [b]) : Walk s minHeight (some b) [b] := by
  induction h generalizing us' with
  | root => simp at hus
  | stop => simp at hus
  | step habove rest ih =>
    cases us' with
    | nil =>
      obtain ⟨rfl, rfl⟩ := List.cons.inj hus
      exact .step habove rest
    | cons x us' => exact ih (List.cons.inj hus).2

theorem extends_of_mem {b : CryptoHash} (h : Walk s minHeight cursor us) (hb : cursor = some b) {x : CryptoHash}
    (hx : x ∈ us) : Extends s.up b x := by
  induction h generalizing b with
  | root => cases hx
  | stop => cases hx
  | @step b' us _ rest ih =>
    cases hb
    rcases List.mem_cons.mp hx with rfl | hx
    · exact .refl _
    · cases hp : s.parent b' with
      | none =>
        rw [hp] at rest
        cases rest
        cases hx
      | some p => exact .of_parent (up_of_parent hp) (ih hp hx)

theorem eq_cons {b : CryptoHash} (h : Walk s minHeight (some b) us) (hne : us ≠ []) :
    ∃ rest, us = b :: rest := by
  cases h with
  | stop => exact (hne rfl).elim
  | step _ _ => exact ⟨_, rfl⟩

theorem above_of_mem (h : Walk s minHeight cursor us)
    {x : CryptoHash} (hx : x ∈ us) {min : BlockHeight} (hmin : minHeight = some min) :
    ∃ height, s (.blockHeight x) = some height ∧ min < height := by
  induction h with
  | root => cases hx
  | stop => cases hx
  | step habove _ ih =>
    rcases List.mem_cons.mp hx with rfl | hx
    · exact habove min hmin
    · exact ih hx

theorem stored_of_mem (wf : s.WellFormed) (h : Walk s minHeight cursor us)
    (hb : ∀ b ∈ cursor, s.Stored b) {x : CryptoHash} (hx : x ∈ us) : s.Stored x := by
  induction h with
  | root => cases hx
  | stop => cases hx
  | step _ rest ih =>
    rcases List.mem_cons.mp hx with rfl | hx
    · exact hb _ rfl
    · exact ih (fun p hp => wf.stored_of_parent hp) hx

end Walk

/-! ## The operations of a round -/

/-- `x` is in the branch of a sibling of `b`, and goes when `b` is committed. -/
def Pruned (s : BlockTree) (b x : CryptoHash) : Prop :=
  ∃ p sibling, s.up b = some p ∧ s.up sibling = some p ∧ sibling ≠ b ∧ Extends s.up x sibling

/-- What a block that stays extends stays, too. -/
theorem not_pruned_of_extends (wf : s.WellFormed) {t b x : CryptoHash} (hb : Extends s.up t b)
    (hx : Extends s.up t x) : ¬Pruned s b x := by
  rintro ⟨p, sibling, hp, hsibling, hne, hxs⟩
  exact hne (wf.acyclic.eq_of_siblings hsibling hp (hx.trans hxs) hb)

theorem mem_blocksInBranch (wf : s.WellFormed) {fuel : Nat} {root x : CryptoHash}
    {branch : List CryptoHash} (h : blocksInBranch s fuel root = .ok branch) :
    x ∈ branch ↔ Extends s.up x root := by
  rw [mem_depthFirst wf h]
  simp

theorem mem_deleteBranch (wf : s.WellFormed) {fuel : Nat} {root : CryptoHash} {wb : WriteBatch}
    (h : deleteBranch s fuel root = .ok wb) {o : Op Var.Val} :
    o ∈ wb ↔ ∃ x, Extends s.up x root ∧ o ∈ deleteBranchBlock s x := by
  simp only [deleteBranch, Result.bind_eq_ok, Result.pure_eq, Except.ok.injEq] at h
  obtain ⟨branch, hbranch, rfl⟩ := h
  simp only [List.mem_flatMap, mem_blocksInBranch wf hbranch]

theorem mem_deleteSiblings (wf : s.WellFormed) {fuel : Nat} {b : CryptoHash} {wb : WriteBatch}
    (h : deleteSiblings s fuel b = .ok wb) :
    ∃ p, s.up b = some p ∧ ∀ o, o ∈ wb ↔
      (∃ x, Pruned s b x ∧ o ∈ deleteBranchBlock s x) ∨ o = .set (.blockToChildren p) [b] := by
  simp only [deleteSiblings, Result.bind_eq_ok, kv_blockJustify_eq_ok, kv_children_eq_ok,
    Result.pure_eq, Except.ok.injEq] at h
  obtain ⟨justify, hjustify, children, hchildren, deletions, hdeletions, rfl⟩ := h
  have hup : s.up b = some justify.block := up_eq_some.mpr ⟨justify, hjustify, rfl⟩
  have hmem : ∀ c, c ∈ children ↔ s.up c = some justify.block := by
    intro c
    rw [← wf.mem_children, childrenOf, hchildren]
    rfl
  refine ⟨justify.block, hup, fun o => ?_⟩
  rw [List.mem_append, List.mem_flatten]
  refine or_congr ?_ ?_
  · constructor
    · rintro ⟨l, hl, ho⟩
      obtain ⟨sibling, hsibling, hdelete⟩ := (Result.mem_of_mapM hdeletions).mp hl
      obtain ⟨hc, hne⟩ := List.mem_filter.mp hsibling
      obtain ⟨x, hx, ho⟩ := (mem_deleteBranch wf hdelete).mp ho
      exact ⟨x, ⟨justify.block, sibling, hup, (hmem sibling).mp hc, by simpa using hne, hx⟩, ho⟩
    · rintro ⟨x, ⟨p, sibling, hp, hsibling, hne, hx⟩, ho⟩
      obtain rfl : justify.block = p := Option.some.inj (hup.symm.trans hp)
      have hmem' : sibling ∈ children.filter (· ≠ b) :=
        List.mem_filter.mpr ⟨(hmem sibling).mpr hsibling, by simpa using hne⟩
      obtain ⟨l, hl, hdelete⟩ := Result.exists_of_mapM hdeletions hmem'
      exact ⟨l, hl, (mem_deleteBranch wf hdelete).mpr ⟨x, hx, ho⟩⟩
  · simp [WriteBatch.setChildren]

/-- The operations by which a round puts validator set updates into effect. -/
def validatorSetOps (target : CryptoHash) (height : BlockHeight) (vs : ValidatorSet)
    (updates : ValidatorSetUpdates) : WriteBatch :=
  [.set .committedValidatorSet (vs.applyUpdates updates),
   .set .previousValidatorSet vs,
   .set .validatorSetUpdateBlockHeight height,
   .set .validatorSetUpdateDecided false,
   .set (.validatorSetUpdatesStatus target) .committed]

theorem eq_of_key_validatorSetOps {target : CryptoHash} {height : BlockHeight} {vs : ValidatorSet}
    {updates : ValidatorSetUpdates} {o o' : Op Var.Val}
    (ho : o ∈ validatorSetOps target height vs updates)
    (ho' : o' ∈ validatorSetOps target height vs updates) (hkey : o'.key = o.key) : o' = o := by
  simp only [validatorSetOps, List.mem_cons, List.not_mem_nil, or_false] at ho ho'
  rcases ho with rfl | rfl | rfl | rfl | rfl <;>
    rcases ho' with rfl | rfl | rfl | rfl | rfl <;> first | rfl | cases hkey

theorem key_of_mem_validatorSetOps {target : CryptoHash} {height : BlockHeight}
    {vs : ValidatorSet} {updates : ValidatorSetUpdates} {o : Op Var.Val}
    (ho : o ∈ validatorSetOps target height vs updates) :
    o.key = .committedValidatorSet ∨ o.key = .previousValidatorSet ∨
      o.key = .validatorSetUpdateBlockHeight ∨ o.key = .validatorSetUpdateDecided ∨
      o.key = .validatorSetUpdatesStatus target := by
  simp only [validatorSetOps, List.mem_cons, List.not_mem_nil, or_false] at ho
  rcases ho with rfl | rfl | rfl | rfl | rfl <;> simp

/-- The operations of the round of `b` in a commit of `target`. -/
inductive RoundOp (s : BlockTree) (target b : CryptoHash) : Op Var.Val → Prop
  | blockAtHeight {height} (hb : s (.blockHeight b) = some height) :
    RoundOp s target b (.set (.blockAtHeight height) b)
  | prune {x o} (hx : Pruned s b x) (ho : o ∈ deleteBranchBlock s x) : RoundOp s target b o
  | children {p} (hp : s.up b = some p) : RoundOp s target b (.set (.blockToChildren p) [b])
  | appState {updates o} (hb : s (.pendingAppStateUpdates b) = some updates)
      (ho : o ∈ WriteBatch.applyAppStateUpdates updates) : RoundOp s target b o
  | deletePending {updates} (hb : s (.pendingAppStateUpdates b) = some updates) :
    RoundOp s target b (.delete (.pendingAppStateUpdates b))
  | validatorSet {updates height vs o}
      (hb : s (.validatorSetUpdatesStatus b) = some (.pending updates))
      (hheight : s (.blockHeight b) = some height) (hvs : s .committedValidatorSet = some vs)
      (ho : o ∈ validatorSetOps target height vs updates) : RoundOp s target b o
  | highestCommittedBlock : RoundOp s target b (.set .highestCommittedBlock b)

theorem mem_commitAppStateUpdates {b : CryptoHash} {wb : WriteBatch}
    (h : commitAppStateUpdates s b = .ok wb) {o : Op Var.Val} :
    o ∈ wb ↔ ∃ updates, s (.pendingAppStateUpdates b) = some updates ∧
      (o ∈ WriteBatch.applyAppStateUpdates updates ∨ o = .delete (.pendingAppStateUpdates b)) := by
  simp only [commitAppStateUpdates, kv_pendingAppStateUpdates, Result.ok_bind] at h
  cases hb : s (.pendingAppStateUpdates b) with
  | none =>
    obtain rfl : [] = wb := by simpa [hb] using h
    simp
  | some updates =>
    simp only [hb, Result.pure_eq, Except.ok.injEq] at h
    subst h
    simp [WriteBatch.deletePendingAppStateUpdates]

/-- The status of a block in which a missing one counts as `None`. -/
theorem pending_iff {b : CryptoHash} {updates : ValidatorSetUpdates} :
    s.kv.validatorSetUpdatesStatus b = .ok (.pending updates) ↔
      s (.validatorSetUpdatesStatus b) = some (.pending updates) := by
  rw [kv_validatorSetUpdatesStatus]
  cases h : s (.validatorSetUpdatesStatus b) <;> simp

theorem mem_commitValidatorSetUpdates {target b : CryptoHash} {height : BlockHeight}
    {wb : WriteBatch} {updates? : Option ValidatorSetUpdates}
    (h : commitValidatorSetUpdates s target b height = .ok (wb, updates?)) {o : Op Var.Val} :
    o ∈ wb ↔ ∃ updates vs, s (.validatorSetUpdatesStatus b) = some (.pending updates) ∧
      s .committedValidatorSet = some vs ∧ o ∈ validatorSetOps target height vs updates := by
  simp only [commitValidatorSetUpdates, Result.bind_eq_ok] at h
  obtain ⟨status, hstatus, h⟩ := h
  cases status with
  | pending updates =>
    rw [pending_iff] at hstatus
    simp only [Result.bind_eq_ok, kv_committedValidatorSet_eq_ok, Result.pure_eq,
      Except.ok.injEq, Prod.mk.injEq] at h
    obtain ⟨vs, hvs, rfl, -⟩ := h
    simp [hstatus, hvs, validatorSetOps, WriteBatch.setCommittedValidatorSet,
      WriteBatch.setPreviousValidatorSet, WriteBatch.setValidatorSetUpdateBlockHeight,
      WriteBatch.setValidatorSetUpdateDecided, WriteBatch.setCommittedValidatorSetUpdates]
  | none | committed =>
    obtain ⟨rfl, -⟩ : [] = wb ∧ none = updates? := by simpa using h
    simp only [List.not_mem_nil, false_iff]
    rintro ⟨updates, vs, hb, -, -⟩
    rw [pending_iff.mpr hb] at hstatus
    cases hstatus

/-- The parts that a round is put together from. -/
theorem of_commitBlock {fuel : Nat} {target b : CryptoHash}
    {round : WriteBatch × CryptoHash × Option ValidatorSetUpdates}
    (h : commitBlock s fuel target b = .ok round) :
    ∃ height siblings appState validatorSet updates, s (.blockHeight b) = some height ∧
      deleteSiblings s fuel b = .ok siblings ∧ commitAppStateUpdates s b = .ok appState ∧
      commitValidatorSetUpdates s target b height = .ok (validatorSet, updates) ∧
      round = (WriteBatch.setBlockAtHeight height b ++ siblings ++ appState ++ validatorSet ++
        WriteBatch.setHighestCommittedBlock b, b, updates) := by
  simp only [commitBlock, kv_blockHeight, Result.ok_bind] at h
  cases hb : s (.blockHeight b) with
  | none => simp [hb] at h
  | some height =>
    simp only [hb, Result.bind_eq_ok, Result.pure_eq, Except.ok.injEq] at h
    obtain ⟨siblings, hsiblings, appState, happState, ⟨validatorSet, updates⟩, hvalidatorSet,
      rfl⟩ := h
    exact ⟨height, siblings, appState, validatorSet, updates, rfl, hsiblings, happState,
      hvalidatorSet, rfl⟩

/-- A round of `commit` has the operations of `RoundOp`, the last of which makes `b` the
highest committed block. -/
theorem mem_commitBlock (wf : s.WellFormed) {fuel : Nat} {target b : CryptoHash}
    {round : WriteBatch × CryptoHash × Option ValidatorSetUpdates}
    (h : commitBlock s fuel target b = .ok round) :
    (∀ o, o ∈ round.1 ↔ RoundOp s target b o) ∧ round.2.1 = b ∧
      ∃ wb, round.1 = wb ++ [.set .highestCommittedBlock b] := by
  obtain ⟨height, siblings, appState, validatorSet, updates, hb, hsiblings, happState,
    hvalidatorSet, rfl⟩ := of_commitBlock h
  obtain ⟨p, hp, hmem⟩ := mem_deleteSiblings wf hsiblings
  refine ⟨fun o => ?_, rfl, _, rfl⟩
  simp only [List.mem_append, hmem, mem_commitAppStateUpdates happState,
    mem_commitValidatorSetUpdates hvalidatorSet, WriteBatch.setBlockAtHeight,
    WriteBatch.setHighestCommittedBlock, List.mem_singleton]
  constructor
  · rintro ((((rfl | ⟨x, hx, ho⟩ | rfl) | ⟨_, hpending, ho | rfl⟩) | ⟨_, _, hstatus, hvs, ho⟩) | rfl)
    · exact .blockAtHeight hb
    · exact .prune hx ho
    · exact .children hp
    · exact .appState hpending ho
    · exact .deletePending hpending
    · exact .validatorSet hstatus hb hvs ho
    · exact .highestCommittedBlock
  · intro ho
    cases ho with
    | blockAtHeight hb' =>
      rw [hb, Option.some.injEq] at hb'
      simp [hb']
    | prune hx ho => exact .inl (.inl (.inl (.inr (.inl ⟨_, hx, ho⟩))))
    | children hp' =>
      rw [hp, Option.some.injEq] at hp'
      simp [hp']
    | appState hpending ho => exact .inl (.inl (.inr ⟨_, hpending, .inl ho⟩))
    | deletePending hpending => exact .inl (.inl (.inr ⟨_, hpending, .inr rfl⟩))
    | validatorSet hstatus hheight hvs ho =>
      rw [hb, Option.some.injEq] at hheight
      exact .inl (.inr ⟨_, _, hstatus, hvs, hheight ▸ ho⟩)
    | highestCommittedBlock => exact .inr rfl

/-- `wb` commits the blocks `us` of the walk from `target`. -/
structure Commits (s : BlockTree) (target : CryptoHash) (us : List CryptoHash) (wb : WriteBatch) :
    Prop where
  walk : Walk s s.committedHeight (some target) us
  mem : ∀ o, o ∈ wb ↔ ∃ b ∈ us, RoundOp s target b o
  last : us ≠ [] → ∃ wb', wb = wb' ++ [.set .highestCommittedBlock target]

/-- The writes of `commit` are those of the rounds of its walk. -/
theorem commits_of_commit (wf : s.WellFormed) {fuel : Nat} {target : CryptoHash}
    {wb : WriteBatch} {committed : List (CryptoHash × Option ValidatorSetUpdates)}
    (h : commit s fuel target = .ok (wb, committed)) : ∃ us, Commits s target us wb := by
  simp only [commit, kv_highestCommittedBlockHeight, Result.ok_bind, Result.bind_eq_ok,
    Result.pure_eq, Except.ok.injEq, Prod.mk.injEq] at h
  obtain ⟨us, hus, rounds, hrounds, rfl, -⟩ := h
  have hwalk := walk_of_uncommittedFrom hus
  refine ⟨us, hwalk, fun o => ?_, fun hne => ?_⟩
  · rw [List.mem_flatMap]
    constructor
    · rintro ⟨round, hround, ho⟩
      obtain ⟨b, hb, hcommit⟩ := (Result.mem_of_mapM hrounds).mp hround
      exact ⟨b, List.mem_reverse.mp hb, ((mem_commitBlock wf hcommit).1 o).mp ho⟩
    · rintro ⟨b, hb, ho⟩
      obtain ⟨round, hround, hcommit⟩ := Result.exists_of_mapM hrounds (List.mem_reverse.mpr hb)
      exact ⟨round, hround, ((mem_commitBlock wf hcommit).1 o).mpr ho⟩
  · obtain ⟨rest, rfl⟩ := hwalk.eq_cons hne
    rw [List.reverse_cons] at hrounds
    obtain ⟨rounds', last, -, hlast, rfl⟩ := Result.mapM_append_eq_ok.mp hrounds
    obtain ⟨round, rounds₂, hround, hrounds₂, rfl⟩ := Result.mapM_cons_eq_ok.mp hlast
    obtain rfl : [] = rounds₂ := by simpa using hrounds₂
    obtain ⟨-, -, wb', hwb'⟩ := mem_commitBlock wf hround
    refine ⟨rounds'.flatMap Prod.fst ++ wb', ?_⟩
    simp [hwb']

/-! ## What a commit leaves -/

theorem delete_of_mem_deleteBranchBlock {x : CryptoHash} {o : Op Var.Val}
    (ho : o ∈ deleteBranchBlock s x) : o = .delete o.key ∧ o.key.block? = some x := by
  simp only [deleteBranchBlock, List.mem_append, WriteBatch.deleteChildren,
    WriteBatch.deletePendingAppStateUpdates, WriteBatch.deleteBlockValidatorSetUpdates,
    List.mem_singleton, kv_blockDataLen] at ho
  rcases ho with ((rfl | rfl) | rfl) | ho
  · exact ⟨rfl, rfl⟩
  · exact ⟨rfl, rfl⟩
  · exact ⟨rfl, rfl⟩
  · cases hlen : s (.blockDataLen x) with
    | none => simp [hlen] at ho
    | some len =>
      simp only [hlen, WriteBatch.deleteBlock, List.cons_append, List.nil_append, List.mem_cons,
        List.mem_map] at ho
      rcases ho with rfl | rfl | rfl | rfl | ⟨i, -, rfl⟩ <;> exact ⟨rfl, rfl⟩

/-- The variables of a stored block are deleted with its branch, except for datums
beyond its data length. -/
theorem delete_mem_deleteBranchBlock (wf : s.WellFormed) {x : CryptoHash} (hx : s.Stored x)
    {v : Var} (hv : v.block? = some x) (hdatum : v.isDatum = false) :
    .delete v ∈ deleteBranchBlock s x := by
  obtain ⟨len, hlen⟩ := wf.exists_dataLen hx
  simp only [deleteBranchBlock, kv_blockDataLen, hlen, WriteBatch.deleteBlock,
    WriteBatch.deleteChildren, WriteBatch.deletePendingAppStateUpdates,
    WriteBatch.deleteBlockValidatorSetUpdates]
  cases v with
  | blockDatum => cases hdatum
  | blockHeight | blockJustify | blockDataHash | blockDataLen | blockToChildren
    | pendingAppStateUpdates | validatorSetUpdatesStatus =>
    obtain rfl := Option.some.inj hv
    simp
  | _ => cases hv

theorem set_of_mem_applyAppStateUpdates {updates : AppStateUpdates} {o : Op Var.Val}
    (ho : o ∈ WriteBatch.applyAppStateUpdates updates) : ∃ key, o.key = .committedAppState key := by
  simp only [WriteBatch.applyAppStateUpdates, List.mem_append, List.mem_map] at ho
  rcases ho with ⟨⟨key, value⟩, -, rfl⟩ | ⟨key, -, rfl⟩
  · exact ⟨key, rfl⟩
  · exact ⟨key, rfl⟩

/-- What the deletion of siblings writes: it deletes variables of blocks, and sets a children
list. -/
theorem cases_of_mem_deleteSiblings {fuel : Nat} {b : CryptoHash} {wb : WriteBatch}
    (h : deleteSiblings s fuel b = .ok wb) {o : Op Var.Val} (ho : o ∈ wb) :
    (o = .delete o.key ∧ o.key.block?.isSome = true) ∨ ∃ p, o.key = .blockToChildren p := by
  simp only [deleteSiblings, Result.bind_eq_ok, Result.pure_eq, Except.ok.injEq] at h
  obtain ⟨justify, -, children, -, deletions, hdeletions, rfl⟩ := h
  rcases List.mem_append.mp ho with ho | ho
  · obtain ⟨l, hl, ho⟩ := List.mem_flatten.mp ho
    obtain ⟨sibling, -, hdelete⟩ := (Result.mem_of_mapM hdeletions).mp hl
    simp only [deleteBranch, Result.bind_eq_ok, Result.pure_eq, Except.ok.injEq] at hdelete
    obtain ⟨branch, -, rfl⟩ := hdelete
    obtain ⟨x, -, ho⟩ := List.mem_flatMap.mp ho
    obtain ⟨hdelete, hblock⟩ := delete_of_mem_deleteBranchBlock ho
    exact .inl ⟨hdelete, by rw [hblock]; rfl⟩
  · obtain rfl := List.mem_singleton.mp ho
    exact .inr ⟨_, rfl⟩

/-- What a commit writes: it deletes variables of blocks, and writes what committing is about. -/
theorem cases_of_mem_commit {fuel : Nat} {target : CryptoHash} {wb : WriteBatch}
    {committed : List (CryptoHash × Option ValidatorSetUpdates)}
    (h : commit s fuel target = .ok (wb, committed)) {o : Op Var.Val} (ho : o ∈ wb) :
    (o = .delete o.key ∧ o.key.block?.isSome = true) ∨ o.key.isCommitted = true := by
  simp only [commit, kv_highestCommittedBlockHeight, Result.ok_bind, Result.bind_eq_ok,
    Result.pure_eq, Except.ok.injEq, Prod.mk.injEq] at h
  obtain ⟨us, -, rounds, hrounds, rfl, -⟩ := h
  obtain ⟨round, hround, ho⟩ := List.mem_flatMap.mp ho
  obtain ⟨b, -, hcommit⟩ := (Result.mem_of_mapM hrounds).mp hround
  obtain ⟨height, siblings, appState, validatorSet, updates, -, hsiblings, happState,
    hvalidatorSet, rfl⟩ := of_commitBlock hcommit
  simp only [List.mem_append, mem_commitAppStateUpdates happState,
    mem_commitValidatorSetUpdates hvalidatorSet, WriteBatch.setBlockAtHeight,
    WriteBatch.setHighestCommittedBlock, List.mem_singleton] at ho
  rcases ho with (((rfl | ho) | ⟨_, -, ho | rfl⟩) | ⟨_, _, -, -, ho⟩) | rfl
  · exact .inr rfl
  · rcases cases_of_mem_deleteSiblings hsiblings ho with hdelete | ⟨p, hp⟩
    · exact .inl hdelete
    · rw [hp]
      exact .inr rfl
  · obtain ⟨key, hk⟩ := set_of_mem_applyAppStateUpdates ho
    rw [hk]
    exact .inr rfl
  · exact .inl ⟨rfl, rfl⟩
  · simp only [validatorSetOps, List.mem_cons, List.not_mem_nil, or_false] at ho
    rcases ho with rfl | rfl | rfl | rfl | rfl <;> exact .inr rfl
  · exact .inr rfl

/-- What a commit writes is about blocks, heights, the app state, validator sets, or the
highest committed block. -/
theorem not_isProgress_of_mem_commit {fuel : Nat} {target : CryptoHash} {wb : WriteBatch}
    {committed : List (CryptoHash × Option ValidatorSetUpdates)}
    (h : commit s fuel target = .ok (wb, committed)) {o : Op Var.Val} (ho : o ∈ wb) :
    o.key.isProgress = false := by
  rcases cases_of_mem_commit h ho with ⟨-, hblock⟩ | hcommitted
  · cases hprogress : o.key.isProgress with
    | false => rfl
    | true =>
      rw [Var.block?_of_isProgress hprogress] at hblock
      cases hblock
  · generalize o.key = v at hcommitted ⊢
    cases v <;> first | rfl | cases hcommitted

/-- A field of a block is kept by a commit, or deleted. -/
theorem field_write_commit {fuel : Nat} {target : CryptoHash} {wb : WriteBatch}
    {committed : List (CryptoHash × Option ValidatorSetUpdates)}
    (h : commit s fuel target = .ok (wb, committed)) {v : Var} (hv : v.isField = true) :
    s.write wb v = s v ∨ s.write wb v = none := by
  by_cases hmem : ∃ o ∈ wb, v = o.key
  · obtain ⟨o, ho, rfl⟩ := hmem
    have hdelete : ∀ o' ∈ wb, o'.key = o.key → o' = .delete o.key := by
      intro o' ho' hkey
      rcases cases_of_mem_commit h ho' with ⟨hdelete, -⟩ | hcommitted
      · rw [hdelete, hkey]
      · rw [hkey, Var.isCommitted_of_isField hv] at hcommitted
        cases hcommitted
    refine .inr (Store.write_of_deleted s ?_ fun x hx => ?_)
    · rw [← hdelete o ho rfl]
      exact ho
    · cases hdelete _ hx rfl
  · exact .inl (Store.write_of_notMem s fun o ho hk => hmem ⟨o, ho, hk⟩)

namespace Commits

variable {target : CryptoHash} {us : List CryptoHash} {wb : WriteBatch}

/-- The variables of a block that is not pruned and no other round writes. -/
theorem kept (h : Commits s target us wb) {v : Var} {x : CryptoHash} (hv : v.block? = some x)
    (hpruned : ∀ b ∈ us, ¬Pruned s b x)
    (hchildren : ∀ b ∈ us, ∀ p, s.up b = some p → v ≠ .blockToChildren p)
    (hpending : ∀ b ∈ us, v ≠ .pendingAppStateUpdates b)
    (hstatus : ∀ b ∈ us, ∀ updates, s (.validatorSetUpdatesStatus b) = some (.pending updates) →
      v ≠ .validatorSetUpdatesStatus target) : s.write wb v = s v := by
  refine Store.write_of_notMem s fun o ho hkey => ?_
  obtain ⟨b, hb, ho⟩ := (h.mem o).mp ho
  cases ho with
  | blockAtHeight => rw [hkey] at hv; cases hv
  | @prune y _ hy ho =>
    have hy' := (delete_of_mem_deleteBranchBlock ho).2
    rw [← hkey, hv, Option.some.injEq] at hy'
    exact hpruned b hb (hy' ▸ hy)
  | children hp => exact hchildren b hb _ hp hkey
  | appState _ ho =>
    obtain ⟨key, hk⟩ := set_of_mem_applyAppStateUpdates ho
    rw [hkey, hk] at hv
    cases hv
  | deletePending => exact hpending b hb hkey
  | validatorSet hupdates _ _ ho =>
    simp only [validatorSetOps, List.mem_cons, List.not_mem_nil, or_false] at ho
    rcases ho with rfl | rfl | rfl | rfl | rfl
    · rw [hkey] at hv; cases hv
    · rw [hkey] at hv; cases hv
    · rw [hkey] at hv; cases hv
    · rw [hkey] at hv; cases hv
    · exact hstatus b hb _ hupdates hkey
  | highestCommittedBlock => rw [hkey] at hv; cases hv

/-- The fields of a block that is not pruned stay as they are. -/
theorem field_kept (h : Commits s target us wb) {v : Var} {x : CryptoHash} (hfield : v.isField = true)
    (hv : v.block? = some x) (hpruned : ∀ b ∈ us, ¬Pruned s b x) : s.write wb v = s v := by
  refine h.kept hv hpruned ?_ ?_ ?_
  · rintro b _ p _ rfl
    cases hfield
  · rintro b _ rfl
    cases hfield
  · rintro b _ updates _ rfl
    cases hfield

/-- The blocks that a commit prunes. -/
def Prunes (s : BlockTree) (us : List CryptoHash) (x : CryptoHash) : Prop :=
  ∃ b ∈ us, Pruned s b x

theorem Prunes.stored {x : CryptoHash} (h : Prunes s us x) : s.Stored x := by
  obtain ⟨b, -, p, sibling, -, hsibling, -, hx⟩ := h
  rcases Extends.iff_parent.mp hx with rfl | ⟨q, hq, -⟩
  · exact .of_up hsibling
  · exact .of_up hq

/-- A branch is pruned as a whole. -/
theorem Prunes.of_up {x p : CryptoHash} (h : Prunes s us p) (hx : s.up x = some p) :
    Prunes s us x := by
  obtain ⟨b, hb, q, sibling, hq, hsibling, hne, hp⟩ := h
  exact ⟨b, hb, q, sibling, hq, hsibling, hne, .of_parent hx hp⟩

theorem eq_nil (h : Commits s target [] wb) : wb = [] := by
  refine List.eq_nil_iff_forall_not_mem.mpr fun o ho => ?_
  obtain ⟨b, hb, -⟩ := (h.mem o).mp ho
  cases hb

/-- The target becomes the highest committed block. -/
theorem highestCommittedBlock_write (h : Commits s target us wb) (hne : us ≠ []) :
    s.write wb .highestCommittedBlock = some target := by
  obtain ⟨wb', rfl⟩ := h.last hne
  rw [Store.write_append]
  exact Store.apply_set (s.write wb') .highestCommittedBlock target

/-- The children of a block that is neither pruned nor the parent of a committed block. -/
theorem children_kept (h : Commits s target us wb) {p : CryptoHash} (hpruned : ¬Prunes s us p)
    (hp : ∀ b ∈ us, s.up b ≠ some p) : s.write wb (.blockToChildren p) = s (.blockToChildren p) := by
  refine h.kept rfl (fun b hb hx => hpruned ⟨b, hb, hx⟩) (fun b hb q hq hv => ?_) ?_ ?_
  · cases hv
    exact hp b hb hq
  · rintro b _ ⟨⟩
  · rintro b _ updates _ ⟨⟩

/-- A block that is not pruned keeps the status of its updates, unless it is the target and
pending updates are committed. -/
theorem status_write_of_not_prunes (h : Commits s target us wb) {x : CryptoHash}
    (hx : ¬Prunes s us x) (hstatus : ∀ b ∈ us, ∀ updates,
      s (.validatorSetUpdatesStatus b) = some (.pending updates) → x ≠ target) :
    s.write wb (.validatorSetUpdatesStatus x) = s (.validatorSetUpdatesStatus x) := by
  refine h.kept rfl (fun b hb hpruned => hx ⟨b, hb, hpruned⟩) ?_ ?_ ?_
  · rintro b _ p _ ⟨⟩
  · rintro b _ ⟨⟩
  · intro b hb updates hpending hv
    exact hstatus b hb updates hpending (by simpa using hv)

theorem field_write (h : Commits s target us wb) {v : Var} {x : CryptoHash} (hfield : v.isField = true)
    (hv : v.block? = some x) (hx : ¬Prunes s us x) : s.write wb v = s v :=
  h.field_kept hfield hv fun b hb hpruned => hx ⟨b, hb, hpruned⟩

variable (wf : s.WellFormed) (h : Commits s target us wb)
include wf h

/-- What the target extends stays. -/
theorem not_prunes {x : CryptoHash} (hx : Extends s.up target x) : ¬Prunes s us x := by
  rintro ⟨b, hb, hpruned⟩
  exact not_pruned_of_extends wf (h.walk.extends_of_mem rfl hb) hx hpruned

theorem not_prunes_up {b p : CryptoHash} (hb : b ∈ us) (hp : s.up b = some p) :
    ¬Prunes s us p :=
  h.not_prunes wf ((h.walk.extends_of_mem rfl hb).trans (.parent hp))

/-- What the deletion of a pruned block deletes is gone, as nothing else writes it. -/
theorem gone_of_delete {x : CryptoHash} (hx : Prunes s us x) {v : Var} (hv : v.block? = some x)
    (hdelete : .delete v ∈ deleteBranchBlock s x) : s.write wb v = none := by
  obtain ⟨b, hb, hpruned⟩ := hx
  refine Store.write_of_deleted s ((h.mem _).mpr ⟨b, hb, .prune hpruned hdelete⟩) fun value ho => ?_
  obtain ⟨b', hb', ho⟩ := (h.mem _).mp ho
  cases ho with
  | blockAtHeight => cases hv
  | prune _ ho => cases (delete_of_mem_deleteBranchBlock ho).1
  | children hp =>
    obtain rfl := Option.some.inj hv
    exact h.not_prunes_up wf hb' hp ⟨b, hb, hpruned⟩
  | appState _ ho =>
    obtain ⟨key, hk⟩ := set_of_mem_applyAppStateUpdates ho
    obtain rfl : v = .committedAppState key := hk
    cases hv
  | validatorSet _ _ _ ho =>
    simp only [validatorSetOps, List.mem_cons, List.not_mem_nil, or_false, Op.set.injEq] at ho
    rcases ho with ⟨rfl, -⟩ | ⟨rfl, -⟩ | ⟨rfl, -⟩ | ⟨rfl, -⟩ | ⟨rfl, -⟩
    · cases hv
    · cases hv
    · cases hv
    · cases hv
    · obtain rfl := Option.some.inj hv
      exact h.not_prunes wf (.refl _) ⟨b, hb, hpruned⟩
  | highestCommittedBlock => cases hv

/-- The variables of a pruned block are gone. -/
theorem pruned_gone {x : CryptoHash} (hx : Prunes s us x) {v : Var}
    (hv : v.block? = some x) (hdatum : v.isDatum = false) : s.write wb v = none :=
  h.gone_of_delete wf hx hv (delete_mem_deleteBranchBlock wf hx.stored hv hdatum)

/-- So are its datums. -/
theorem pruned_datum_gone {x : CryptoHash} (hx : Prunes s us x) {len : DataLen}
    (hlen : s (.blockDataLen x) = some len) {i : U32} (hi : i.val < len.val) :
    s.write wb (.blockDatum x i) = none := by
  refine h.gone_of_delete wf hx rfl ?_
  simp only [deleteBranchBlock, kv_blockDataLen, hlen, WriteBatch.deleteBlock, List.mem_append,
    List.mem_map, List.mem_range]
  exact .inr (.inr ⟨i.val, hi, congrArg _ (congrArg _ (Fin.ofNat_val_eq_self i))⟩)

/-- A committed block is the only child of its parent. -/
theorem children_committed {b p : CryptoHash} (hb : b ∈ us) (hp : s.up b = some p) :
    s.write wb (.blockToChildren p) = some [b] := by
  have ho : (.set (.blockToChildren p) [b] : Op Var.Val) ∈ wb := (h.mem _).mpr ⟨b, hb, .children hp⟩
  refine Store.write_of_unique s ho fun o' ho' hkey => ?_
  obtain ⟨b', hb', ho'⟩ := (h.mem o').mp ho'
  cases ho' with
  | blockAtHeight => cases hkey
  | @prune y _ hy ho' =>
    have hblock := (delete_of_mem_deleteBranchBlock ho').2
    rw [hkey] at hblock
    obtain rfl : p = y := Option.some.inj hblock
    exact (h.not_prunes_up wf hb hp ⟨b', hb', hy⟩).elim
  | @children p' hp' =>
    obtain rfl : p' = p := by simpa using hkey
    rw [wf.acyclic.eq_of_siblings hp' hp (h.walk.extends_of_mem rfl hb')
      (h.walk.extends_of_mem rfl hb)]
  | appState _ ho' =>
    obtain ⟨key, hk⟩ := set_of_mem_applyAppStateUpdates ho'
    rw [hk] at hkey
    cases hkey
  | deletePending => cases hkey
  | validatorSet _ _ _ ho' =>
    simp only [validatorSetOps, List.mem_cons, List.not_mem_nil, or_false] at ho'
    rcases ho' with rfl | rfl | rfl | rfl | rfl <;> cases hkey
  | highestCommittedBlock => cases hkey

/-- The only validator set updates that a commit puts into effect are in effect after it. -/
theorem validatorSetOps_write {b : CryptoHash} {height : BlockHeight} {vs : ValidatorSet}
    {updates : ValidatorSetUpdates} (hb : b ∈ us)
    (hpending : s (.validatorSetUpdatesStatus b) = some (.pending updates))
    (honly : ∀ x ∈ us, x ≠ b →
      ∀ updates, s (.validatorSetUpdatesStatus x) ≠ some (.pending updates))
    (hheight : s (.blockHeight b) = some height) (hvs : s .committedValidatorSet = some vs)
    {o : Op Var.Val} (ho : o ∈ validatorSetOps target height vs updates) :
    s.write wb o.key = o.value := by
  refine Store.write_of_unique s ((h.mem o).mpr ⟨b, hb, .validatorSet hpending hheight hvs ho⟩)
    fun o' ho' hkey => ?_
  have hk := key_of_mem_validatorSetOps ho
  rw [← hkey] at hk
  obtain ⟨b', hb', ho'⟩ := (h.mem o').mp ho'
  cases ho' with
  | blockAtHeight => simp at hk
  | @prune y _ hy ho' =>
    have hblock := (delete_of_mem_deleteBranchBlock ho').2
    rcases hk with hk | hk | hk | hk | hk <;> rw [hk] at hblock
    · cases hblock
    · cases hblock
    · cases hblock
    · cases hblock
    · obtain rfl := Option.some.inj hblock
      exact (h.not_prunes wf (.refl target) ⟨b', hb', hy⟩).elim
  | children => simp at hk
  | appState _ ho' =>
    obtain ⟨key, hk'⟩ := set_of_mem_applyAppStateUpdates ho'
    simp [hk'] at hk
  | deletePending => simp at hk
  | @validatorSet updates' height' vs' _ hpending' hheight' hvs' ho' =>
    obtain rfl : b' = b := by
      by_contra hne
      exact honly b' hb' hne updates' hpending'
    cases hpending.symm.trans hpending'
    cases hheight.symm.trans hheight'
    cases hvs.symm.trans hvs'
    exact eq_of_key_validatorSetOps ho ho' hkey
  | highestCommittedBlock => simp at hk

theorem up_write {x p : CryptoHash} :
    (up (s.write wb)) x = some p ↔ s.up x = some p ∧ ¬Prunes s us x := by
  by_cases hx : Prunes s us x
  · simp [up, h.pruned_gone wf hx (v := .blockJustify x) rfl rfl, hx]
  · simp only [up, h.field_write rfl rfl hx (v := .blockJustify x), hx, not_false_eq_true,
      and_true]

theorem stored_write {x : CryptoHash} : Stored (s.write wb) x ↔ s.Stored x ∧ ¬Prunes s us x := by
  simp only [stored_iff_up, h.up_write wf, exists_and_right]

/-- A block of which something is left was not pruned. -/
theorem not_prunes_of_write {x : CryptoHash} {v : Var} {value : v.Val} (hv : v.block? = some x)
    (hdatum : v.isDatum = false) (hwrite : s.write wb v = some value) : ¬Prunes s us x := by
  intro hprunes
  rw [h.pruned_gone wf hprunes hv hdatum] at hwrite
  cases hwrite

/-- A field that all blocks of the tree have is one that they have afterwards. -/
theorem isSome_field_write {f : CryptoHash → Var} (hfield : ∀ x, (f x).isField = true)
    (hblock : ∀ x, (f x).block? = some x) (hdatum : ∀ x, (f x).isDatum = false)
    (hs : ∀ x, (s (f x)).isSome = true ↔ s.Stored x) (x : CryptoHash) :
    (s.write wb (f x)).isSome = true ↔ Stored (s.write wb) x := by
  rw [h.stored_write wf]
  by_cases hx : Prunes s us x
  · simp [h.pruned_gone wf hx (hblock x) (hdatum x), hx]
  · simp [h.field_write (hfield x) (hblock x) hx, hs, hx]

/-- The children lists follow the justify links that are left. -/
theorem mem_children_write {p c : CryptoHash} :
    c ∈ childrenOf (s.write wb) p ↔ up (s.write wb) c = some p := by
  rw [h.up_write wf]
  by_cases hp : Prunes s us p
  · have hnone : s.write wb (.blockToChildren p) = none := h.pruned_gone wf hp rfl rfl
    simp only [childrenOf, hnone, Option.getD_none, List.not_mem_nil, false_iff, not_and, not_not]
    exact fun hc => hp.of_up hc
  · by_cases hb : ∃ b ∈ us, s.up b = some p
    · obtain ⟨b, hb, hup⟩ := hb
      have hsome : s.write wb (.blockToChildren p) = some [b] := h.children_committed wf hb hup
      simp only [childrenOf, hsome, Option.getD_some, List.mem_singleton]
      constructor
      · rintro rfl
        exact ⟨hup, h.not_prunes wf (h.walk.extends_of_mem rfl hb)⟩
      · rintro ⟨hc, hnot⟩
        by_contra hne
        exact hnot ⟨b, hb, p, c, hup, hc, hne, .refl c⟩
    · have heq : s.write wb (.blockToChildren p) = s (.blockToChildren p) :=
        h.children_kept hp fun b hbu hup => hb ⟨b, hbu, hup⟩
      rw [childrenOf, heq]
      refine (wf.mem_children p c).trans (iff_self_and.mpr fun hc hpruned => ?_)
      -- A pruned child of a block that stays is the sibling of a committed block.
      obtain ⟨b, hbu, q, sibling, hq, hsibling, hne, hx⟩ := hpruned
      rcases Extends.iff_parent.mp hx with rfl | ⟨p', hp', hx'⟩
      · exact hb ⟨b, hbu, hc ▸ hsibling ▸ hq⟩
      · obtain rfl : p = p' := Option.some.inj (hc.symm.trans hp')
        exact hp ⟨b, hbu, q, sibling, hq, hsibling, hne, hx'⟩

/-- A commit keeps the tree well-formed. -/
theorem wellFormed : WellFormed (s.write wb) := by
  constructor
  · exact h.isSome_field_write wf (f := .blockHeight) (fun _ => rfl) (fun _ => rfl) (fun _ => rfl)
      wf.height
  · exact h.isSome_field_write wf (f := .blockDataHash) (fun _ => rfl) (fun _ => rfl) (fun _ => rfl)
      wf.dataHash
  · exact h.isSome_field_write wf (f := .blockDataLen) (fun _ => rfl) (fun _ => rfl) (fun _ => rfl)
      wf.dataLen
  · intro b len hlen i hi
    have hb := h.not_prunes_of_write wf rfl rfl hlen
    rw [h.field_write rfl rfl hb] at hlen ⊢
    exact wf.datum b len hlen i hi
  · intro h0
    exact wf.genesis ((h.stored_write wf).mp h0).1
  · intro b j hj
    have hb := h.not_prunes_of_write wf rfl rfl hj
    rw [h.field_write rfl rfl hb] at hj
    refine (wf.parent b j hj).imp_right fun hstored => (h.stored_write wf).mpr ⟨hstored, fun hp => ?_⟩
    exact hb (hp.of_up (up_eq_some.mpr ⟨j, hj, rfl⟩))
  · exact wf.acyclic.mono fun x p hx => ((h.up_write wf).mp hx).1
  · exact fun p c => h.mem_children_write wf

end Commits

end BlockTree
end HotStuffRs
