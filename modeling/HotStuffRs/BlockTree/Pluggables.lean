import HotStuffRs.BlockTree.Variables

namespace HotStuffRs

/-- The provided methods of a key-value store, over its one required method. -/
structure KVGet where
  get : (v : Var) → Result (Option v.Val)

/-- `Iterator::find`, with what is left in the iterator afterwards. -/
def Iter.find {α : Type} (p : α → Bool) : List α → Option α × List α
  | [] => (none, [])
  | a :: rest => if p a then (some a, rest) else find p rest

theorem Iter.find_of_all {α : Type} {p : α → Bool} {xs : List α} (h : ∀ a ∈ xs, p a = false) :
    find p xs = (none, []) := by
  induction xs with
  | nil => rfl
  | cons a xs ih =>
    rw [find, h a List.mem_cons_self]
    exact ih fun a' ha' => h a' (List.mem_cons_of_mem _ ha')

namespace KVGet

variable (kv : KVGet)

/-- Read a variable that must have a value. -/
def expect (v : Var) (key : Key) : Result v.Val := do
  match ← kv.get v with
  | some x => return x
  | none => throw (.error (.kvGetError (.valueExpectedButNotFound key)))

def blockHeight (block : CryptoHash) : Result (Option BlockHeight) := kv.get (.blockHeight block)

def blockJustify (block : CryptoHash) : Result PhaseCertificate :=
  kv.expect (.blockJustify block) (.blockJustify block)

def blockDataHash (block : CryptoHash) : Result (Option CryptoHash) :=
  kv.get (.blockDataHash block)

def blockDataLen (block : CryptoHash) : Result (Option DataLen) := kv.get (.blockDataLen block)

/-- Datums are stored as they are, so that reading one never fails. -/
def blockDatum (block : CryptoHash) (index : U32) : Option Datum :=
  (Result.ok? (kv.get (.blockDatum block index))).join

/-- The datums `0..len` as the iterator of the source yields them. -/
def datums (block : CryptoHash) (len : DataLen) : List (Option Datum) :=
  (List.range len.val).map fun i => kv.blockDatum block (Fin.ofNat _ i)

def blockData (block : CryptoHash) : Result (Option Data) := do
  match ← kv.blockDataLen block with
  | none => return none
  | some len =>
    -- `data` is what `find` leaves of the iterator it was called on.
    match Iter.find Option.isNone (kv.datums block len) with
    | (none, data) =>
      let data ← data.mapM Result.unwrap
      return some data
    | (some _, _) => throw (.error (.kvGetError (.valueExpectedButNotFound (.blockData block))))

def block (block : CryptoHash) : Result (Option Block) := do
  match ← kv.blockHeight block with
  | none => return none
  | some height =>
    let justify ← kv.blockJustify block
    let dataHash ← kv.blockDataHash block
    let data ← kv.blockData block
    match dataHash, data with
    | none, _ => throw (.error (.kvGetError (.valueExpectedButNotFound (.blockDataHash block))))
    | some _, none => throw (.error (.kvGetError (.valueExpectedButNotFound (.blockData block))))
    | some dataHash, some data => return some { height, hash := block, justify, dataHash, data }

def blockAtHeight (height : BlockHeight) : Result (Option CryptoHash) :=
  kv.get (.blockAtHeight height)

def children (block : CryptoHash) : Result ChildrenList :=
  kv.expect (.blockToChildren block) (.blockChildren block)

def committedAppState (key : List Byte) : Option (List Byte) :=
  (Result.ok? (kv.get (.committedAppState key))).join

def pendingAppStateUpdates (block : CryptoHash) : Result (Option AppStateUpdates) :=
  kv.get (.pendingAppStateUpdates block)

def committedValidatorSet : Result ValidatorSet :=
  kv.expect .committedValidatorSet .committedValidatorSet

def validatorSetUpdatesStatus (block : CryptoHash) : Result ValidatorSetUpdatesStatus := do
  match ← kv.get (.validatorSetUpdatesStatus block) with
  | some status => return status
  | none => return .none

def lockedPc : Result PhaseCertificate := kv.expect .lockedPc .lockedPC

def highestViewEntered : Result ViewNumber := kv.expect .highestViewEntered .highestViewEntered

def highestPc : Result PhaseCertificate := kv.expect .highestPc .highestPC

def highestCommittedBlock : Result (Option CryptoHash) := kv.get .highestCommittedBlock

def newestBlock : Result (Option CryptoHash) := kv.get .newestBlock

def highestTc : Result (Option TimeoutCertificate) := kv.get .highestTc

/-- The source names the committed validator set in this error. -/
def previousValidatorSet : Result ValidatorSet :=
  kv.expect .previousValidatorSet .committedValidatorSet

def validatorSetUpdateBlockHeight : Result (Option BlockHeight) :=
  kv.get .validatorSetUpdateBlockHeight

def validatorSetUpdateComplete : Result Bool :=
  kv.expect .validatorSetUpdateDecided .validatorSetUpdateDecided

def validatorSetState : Result ValidatorSetState := do
  return {
    committedValidatorSet := ← kv.committedValidatorSet
    previousValidatorSet := ← kv.previousValidatorSet
    updateHeight := ← kv.validatorSetUpdateBlockHeight
    updateDecided := ← kv.validatorSetUpdateComplete }

def highestViewPhaseVoted : Result (Option ViewNumber) := kv.get .highestViewPhaseVoted

/-! ## Extra getters of `BlockTreeSingleton` -/

def contains (block : CryptoHash) : Bool :=
  match kv.block block with
  | .ok block => block.isSome
  | .error _ => false

def highestViewWithProgress : Result ViewNumber := do
  let entered ← kv.highestViewEntered
  let pc ← kv.highestPc
  let tc ← kv.highestTc
  return max entered (max pc.view ((tc.map TimeoutCertificate.view).getD ViewNumber.init))

def highestCommittedBlockHeight : Result (Option BlockHeight) := do
  match ← kv.highestCommittedBlock with
  | some block => kv.blockHeight block
  | none => return none

/-- The block that `block` extends, unless it extends the genesis placeholder or
its justify cannot be read. -/
def parent? (block : CryptoHash) : Option CryptoHash :=
  match kv.blockJustify block with
  | .ok justify => if justify.isGenesisPc then none else some justify.block
  | .error _ => none

/-! ## Reading a block from its fields -/

variable {kv}

/-- `find` has exhausted the iterator by the time `block_data` collects it. -/
theorem blockData_of_datums {b : CryptoHash} {len : DataLen}
    (hlen : kv.blockDataLen b = .ok (some len))
    (h : ∀ i < len.val, (kv.blockDatum b (Fin.ofNat _ i)).isSome) :
    kv.blockData b = .ok (some []) := by
  have hall : ∀ d ∈ kv.datums b len, d.isNone = false := by
    intro d hd
    obtain ⟨i, hi, rfl⟩ := List.mem_map.mp hd
    rw [← Option.not_isSome, h i (List.mem_range.mp hi)]
    rfl
  rw [blockData, hlen, Result.ok_bind]
  simp only [Iter.find_of_all hall]
  rfl

theorem block_of_fields {b : CryptoHash} {height : BlockHeight} {justify : PhaseCertificate}
    {dataHash : CryptoHash} {data : Data} (hh : kv.blockHeight b = .ok (some height))
    (hj : kv.blockJustify b = .ok justify) (hd : kv.blockDataHash b = .ok (some dataHash))
    (hdata : kv.blockData b = .ok (some data)) :
    kv.block b = .ok (some { height, hash := b, justify, dataHash, data }) := by
  simp only [block, hh, hj, hd, hdata, Result.ok_bind, Result.pure_eq]

theorem block_of_no_height {b : CryptoHash} (hh : kv.blockHeight b = .ok none) :
    kv.block b = .ok none := by
  rw [block, hh]
  rfl

end KVGet

/-- A block tree as the singleton reads it: every stored value deserializes. -/
def Kv.Store.kv (s : BlockTree) : KVGet := ⟨fun v => .ok (s v)⟩

end HotStuffRs
