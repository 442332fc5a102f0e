import HotStuffRs.BlockTree.Invariants

namespace HotStuffRs

open Kv

variable {s : BlockTree}

/-! ## Reading a block tree whose values all deserialize -/

theorem KVGet.expect_eq_ok {v : Var} {key : Key} {x : v.Val} :
    s.kv.expect v key = .ok x ↔ s v = some x := by
  simp only [KVGet.expect, Kv.Store.kv, Result.ok_bind]
  generalize s v = o
  cases o <;> simp

/-- A read that fails fails with an error of the block tree. -/
theorem KVGet.failsIn_expect {F : Failure → Prop} (hF : ∀ e : BlockTreeError, F (.error e)) (v : Var)
    (key : Key) : Result.FailsIn F (s.kv.expect v key) := by
  refine Result.failsIn_bind (Result.failsIn_ok _) fun o _ => ?_
  cases o with
  | some x => exact Result.failsIn_ok x
  | none => exact Result.failsIn_error (hF _)

theorem KVGet.expect_congr {s' : BlockTree} {v : Var} (h : s' v = s v) (key : Key) :
    s'.kv.expect v key = s.kv.expect v key := by
  simp only [KVGet.expect, Kv.Store.kv, h]

@[simp] theorem kv_blockHeight (b : CryptoHash) : s.kv.blockHeight b = .ok (s (.blockHeight b)) :=
  rfl

theorem kv_blockJustify_eq_ok {b : CryptoHash} {j : PhaseCertificate} :
    s.kv.blockJustify b = .ok j ↔ s (.blockJustify b) = some j :=
  KVGet.expect_eq_ok

theorem ok?_kv_expect (v : Var) (key : Key) : Result.ok? (s.kv.expect v key) = s v := by
  simp only [KVGet.expect, Kv.Store.kv, Result.ok_bind]
  generalize s v = o
  cases o <;> rfl

@[simp] theorem ok?_kv_blockJustify (b : CryptoHash) :
    Result.ok? (s.kv.blockJustify b) = s (.blockJustify b) :=
  ok?_kv_expect ..

@[simp] theorem kv_blockDataHash (b : CryptoHash) :
    s.kv.blockDataHash b = .ok (s (.blockDataHash b)) := rfl

@[simp] theorem kv_blockDataLen (b : CryptoHash) :
    s.kv.blockDataLen b = .ok (s (.blockDataLen b)) := rfl

@[simp] theorem kv_blockDatum (b : CryptoHash) (i : U32) :
    s.kv.blockDatum b i = s (.blockDatum b i) := rfl

@[simp] theorem kv_blockAtHeight (h : BlockHeight) :
    s.kv.blockAtHeight h = .ok (s (.blockAtHeight h)) := rfl

theorem kv_children_eq_ok {b : CryptoHash} {cs : ChildrenList} :
    s.kv.children b = .ok cs ↔ s (.blockToChildren b) = some cs :=
  KVGet.expect_eq_ok

@[simp] theorem ok?_kv_children (b : CryptoHash) :
    Result.ok? (s.kv.children b) = s (.blockToChildren b) :=
  ok?_kv_expect ..

@[simp] theorem kv_pendingAppStateUpdates (b : CryptoHash) :
    s.kv.pendingAppStateUpdates b = .ok (s (.pendingAppStateUpdates b)) := rfl

theorem kv_committedValidatorSet_eq_ok {vs : ValidatorSet} :
    s.kv.committedValidatorSet = .ok vs ↔ s .committedValidatorSet = some vs :=
  KVGet.expect_eq_ok

theorem kv_previousValidatorSet_eq_ok {vs : ValidatorSet} :
    s.kv.previousValidatorSet = .ok vs ↔ s .previousValidatorSet = some vs :=
  KVGet.expect_eq_ok

@[simp] theorem kv_validatorSetUpdatesStatus (b : CryptoHash) :
    s.kv.validatorSetUpdatesStatus b = .ok ((s (.validatorSetUpdatesStatus b)).getD .none) := by
  unfold KVGet.validatorSetUpdatesStatus Kv.Store.kv
  cases h : s (.validatorSetUpdatesStatus b) <;> simp [h]

theorem kv_lockedPc_eq_ok {pc : PhaseCertificate} :
    s.kv.lockedPc = .ok pc ↔ s .lockedPc = some pc :=
  KVGet.expect_eq_ok

theorem kv_highestViewEntered_eq_ok {v : ViewNumber} :
    s.kv.highestViewEntered = .ok v ↔ s .highestViewEntered = some v :=
  KVGet.expect_eq_ok

theorem kv_highestPc_eq_ok {pc : PhaseCertificate} :
    s.kv.highestPc = .ok pc ↔ s .highestPc = some pc :=
  KVGet.expect_eq_ok

@[simp] theorem kv_highestCommittedBlock :
    s.kv.highestCommittedBlock = .ok (s .highestCommittedBlock) := rfl

@[simp] theorem kv_newestBlock : s.kv.newestBlock = .ok (s .newestBlock) := rfl

@[simp] theorem kv_highestTc : s.kv.highestTc = .ok (s .highestTc) := rfl

@[simp] theorem kv_validatorSetUpdateBlockHeight :
    s.kv.validatorSetUpdateBlockHeight = .ok (s .validatorSetUpdateBlockHeight) := rfl

@[simp] theorem kv_highestViewPhaseVoted :
    s.kv.highestViewPhaseVoted = .ok (s .highestViewPhaseVoted) := rfl

theorem kv_validatorSetUpdateComplete_eq_ok {decided : Bool} :
    s.kv.validatorSetUpdateComplete = .ok decided ↔
      s .validatorSetUpdateDecided = some decided :=
  KVGet.expect_eq_ok

theorem kv_validatorSetState_eq_ok {vss : ValidatorSetState} :
    s.kv.validatorSetState = .ok vss ↔
      s .committedValidatorSet = some vss.committedValidatorSet ∧
      s .previousValidatorSet = some vss.previousValidatorSet ∧
      s .validatorSetUpdateBlockHeight = vss.updateHeight ∧
      s .validatorSetUpdateDecided = some vss.updateDecided := by
  obtain ⟨c, p, h, d⟩ := vss
  simp only [KVGet.validatorSetState, Result.bind_eq_ok, kv_committedValidatorSet_eq_ok,
    kv_previousValidatorSet_eq_ok, kv_validatorSetUpdateBlockHeight, Except.ok.injEq,
    kv_validatorSetUpdateComplete_eq_ok, Result.pure_eq,
    ValidatorSetState.mk.injEq]
  constructor
  · rintro ⟨c', hc, p', hp, h', rfl, d', hd, rfl, rfl, rfl, rfl⟩
    exact ⟨hc, hp, rfl, hd⟩
  · rintro ⟨hc, hp, rfl, hd⟩
    exact ⟨c, hc, p, hp, _, rfl, d, hd, rfl, rfl, rfl, rfl⟩

/-- The height of the highest committed block. -/
def BlockTree.committedHeight (s : BlockTree) : Option BlockHeight :=
  (s .highestCommittedBlock).bind fun b => s (.blockHeight b)

@[simp] theorem kv_highestCommittedBlockHeight :
    s.kv.highestCommittedBlockHeight = .ok s.committedHeight := by
  unfold KVGet.highestCommittedBlockHeight BlockTree.committedHeight
  rw [kv_highestCommittedBlock, Result.ok_bind]
  cases s .highestCommittedBlock <;> rfl

/-- The block that `b` extends, unless its justify is missing or the Genesis PC. -/
def BlockTree.parent (s : BlockTree) (b : CryptoHash) : Option CryptoHash :=
  (s (.blockJustify b)).bind fun j => if j.isGenesisPc then none else some j.block

@[simp] theorem kv_parent? (b : CryptoHash) : s.kv.parent? b = s.parent b := by
  unfold KVGet.parent? BlockTree.parent KVGet.blockJustify KVGet.expect Kv.Store.kv
  cases h : s (.blockJustify b) <;> simp [h]

end HotStuffRs
