import HotStuffRs.BlockTree.Getters
import HotStuffRs.Codec.Maps
import HotStuffRs.Search.Binary

namespace HotStuffRs

open Kv Codec

/-! ## Encodings of the stored values -/

instance {K V : Type} [Ord K] [Std.TransOrd K] [Std.LawfulEqOrd K] [BEq K] [LawfulBEq K]
    [Borsh K] [Borsh V] : Borsh (UpdateSet K V) :=
  Borsh.ofEquiv (fun u => (u.inserts, u.deletes)) (fun (inserts, deletes) => ⟨inserts, deletes⟩)
    fun _ => rfl

instance : Borsh TimeoutCertificate :=
  Borsh.ofEquiv (fun tc => (tc.chainId, tc.view, tc.signatures))
    (fun (chainId, view, signatures) => ⟨chainId, view, signatures⟩) fun _ => rfl

/-- The validator set with the given fields, if they agree with each other.  The
source does not check this, but never writes fields that disagree. -/
def ValidatorSet.ofFields? (validators : List VerifyingKey) (powers : HashMap VerifyingKey Power) :
    Option ValidatorSet :=
  if h : validators.Pairwise (· < ·) ∧ validators = powers.keys then
    some {
      validators, powers, ascending := h.1
      mem_powers := fun v => by rw [h.2, Std.ExtTreeMap.mem_keys] }
  else none

theorem ValidatorSet.validators_eq_keys (vs : ValidatorSet) : vs.validators = vs.powers.keys :=
  Search.eq_keys vs.ascending vs.mem_powers

theorem ValidatorSet.ofFields?_eq (vs : ValidatorSet) :
    ofFields? vs.validators vs.powers = some vs := by
  rw [ofFields?, dif_pos ⟨vs.ascending, vs.validators_eq_keys⟩]

instance : Borsh ValidatorSet where
  encode vs := Borsh.encode (vs.validators, vs.powers)
  decode bs := (Borsh.decode bs).bind fun ((validators, powers), rest) =>
    (ValidatorSet.ofFields? validators powers).map fun vs => (vs, rest)
  decode_encode {vs bs} h rest := by
    simp only [Borsh.decode_encode h, Option.bind_some, ValidatorSet.ofFields?_eq, Option.map_some]

instance : Borsh ValidatorSetUpdatesStatus where
  encode
    | .none => some [0]
    | .pending updates => (Borsh.encode updates).map fun bs => 1 :: bs
    | .committed => some [2]
  decode
    | [] => none
    | tag :: bs =>
      match tag.val with
      | 0 => some (.none, bs)
      | 1 => (Borsh.decode bs).map fun (updates, rest) => (.pending updates, rest)
      | 2 => some (.committed, bs)
      | _ => none
  decode_encode {status bs} h rest := by
    cases status with
    | none =>
      obtain rfl := Option.some.inj h
      rfl
    | pending updates =>
      obtain ⟨as, ha, rfl⟩ := Option.map_eq_some_iff.mp h
      simp only [List.cons_append, Borsh.decode_encode ha]
      rfl
    | committed =>
      obtain rfl := Option.some.inj h
      rfl

namespace Var

/-! ## Key paths -/

def hashBytes (b : CryptoHash) : List Byte := Borsh.beBytes 32 b.val

/-- The bytes under which a variable is kept. -/
def key : Var → List Byte
  | blockHeight b => 0 :: (hashBytes b ++ [0])
  | blockJustify b => 0 :: (hashBytes b ++ [1])
  | blockDataHash b => 0 :: (hashBytes b ++ [2])
  | blockDataLen b => 0 :: (hashBytes b ++ [3])
  | blockDatum b i => 0 :: (hashBytes b ++ 4 :: leBytes 4 i.val)
  | blockAtHeight h => 1 :: leBytes 8 h.val
  | blockToChildren b => 2 :: hashBytes b
  | committedAppState k => 3 :: k
  | pendingAppStateUpdates b => 4 :: hashBytes b
  | committedValidatorSet => [5]
  | validatorSetUpdatesStatus b => 6 :: hashBytes b
  | lockedPc => [7]
  | highestViewEntered => [8]
  | highestPc => [9]
  | highestCommittedBlock => [10]
  | newestBlock => [11]
  | highestTc => [12]
  | previousValidatorSet => [13]
  | validatorSetUpdateBlockHeight => [14]
  | validatorSetUpdateDecided => [15]
  | highestViewPhaseVoted => [16]

def hashOfBytes (bs : List Byte) : CryptoHash := Fin.ofNat _ (ofLeBytes bs.reverse)

/-- The variable of a block that the bytes after its hash name. -/
def ofField (b : CryptoHash) : List Byte → Option Var
  | [] => none
  | field :: index =>
    [blockHeight b, blockJustify b, blockDataHash b, blockDataLen b,
      blockDatum b (Fin.ofNat _ (ofLeBytes index))][field.val]?

/-- The variable kept under some bytes. -/
def ofKey : List Byte → Option Var
  | [] => none
  | tag :: rest =>
    match tag.val with
    | 0 => ofField (hashOfBytes (rest.take 32)) (rest.drop 32)
    | 1 => some (blockAtHeight (Fin.ofNat _ (ofLeBytes rest)))
    | 2 => some (blockToChildren (hashOfBytes rest))
    | 3 => some (committedAppState rest)
    | 4 => some (pendingAppStateUpdates (hashOfBytes rest))
    | 5 => some committedValidatorSet
    | 6 => some (validatorSetUpdatesStatus (hashOfBytes rest))
    | 7 => some lockedPc
    | 8 => some highestViewEntered
    | 9 => some highestPc
    | 10 => some highestCommittedBlock
    | 11 => some newestBlock
    | 12 => some highestTc
    | 13 => some previousValidatorSet
    | 14 => some validatorSetUpdateBlockHeight
    | 15 => some validatorSetUpdateDecided
    | 16 => some highestViewPhaseVoted
    | _ => none

@[simp] theorem hashOfBytes_hashBytes (b : CryptoHash) : hashOfBytes (hashBytes b) = b :=
  Borsh.ofNat_beBytes (by norm_num) b

theorem ofKey_block (b : CryptoHash) (field : List Byte) :
    ofKey (0 :: (hashBytes b ++ field)) = ofField b field := by
  have hlen : (hashBytes b).length = 32 := Borsh.length_beBytes 32 b.val
  simp only [ofKey, Fin.val_zero, List.take_left' hlen, List.drop_left' hlen,
    hashOfBytes_hashBytes]

theorem ofKey_key (v : Var) : ofKey v.key = some v := by
  cases v with
  | blockHeight b => exact ofKey_block b [0]
  | blockJustify b => exact ofKey_block b [1]
  | blockDataHash b => exact ofKey_block b [2]
  | blockDataLen b => exact ofKey_block b [3]
  | blockDatum b i =>
    have hi := Borsh.ofNat_ofLeBytes (n := 4) (by norm_num) i
    rw [key, ofKey_block]
    show some (blockDatum b _) = _
    rw [hi]
  | blockAtHeight h =>
    have hh := Borsh.ofNat_ofLeBytes (n := 8) (by norm_num) h
    show some (blockAtHeight _) = _
    rw [hh]
  | blockToChildren b =>
    show some (blockToChildren _) = _
    rw [hashOfBytes_hashBytes]
  | pendingAppStateUpdates b =>
    show some (pendingAppStateUpdates _) = _
    rw [hashOfBytes_hashBytes]
  | validatorSetUpdatesStatus b =>
    show some (validatorSetUpdatesStatus _) = _
    rw [hashOfBytes_hashBytes]
  | _ => rfl

/-- No two variables share a key. -/
theorem key_inj {v w : Var} (h : v.key = w.key) : v = w :=
  Option.some.inj ((ofKey_key v).symm.trans (h ▸ ofKey_key w))

/-! ## Values -/

/-- The bytes in which a value of a variable is kept: datums and app state as they
are, all else through Borsh. -/
def encode : (v : Var) → v.Val → Option (List Byte)
  | blockHeight _, x | highestViewEntered, x | validatorSetUpdateBlockHeight, x
  | highestViewPhaseVoted, x => @Borsh.encode U64 _ x
  | blockJustify _, x | lockedPc, x | highestPc, x => @Borsh.encode PhaseCertificate _ x
  | blockDataHash _, x | blockAtHeight _, x | highestCommittedBlock, x | newestBlock, x =>
    @Borsh.encode CryptoHash _ x
  | blockDataLen _, x => @Borsh.encode U32 _ x
  | blockDatum _ _, x | committedAppState _, x => some x
  | blockToChildren _, x => @Borsh.encode (List CryptoHash) _ x
  | pendingAppStateUpdates _, x => @Borsh.encode AppStateUpdates _ x
  | committedValidatorSet, x | previousValidatorSet, x => @Borsh.encode ValidatorSet _ x
  | validatorSetUpdatesStatus _, x => @Borsh.encode ValidatorSetUpdatesStatus _ x
  | highestTc, x => @Borsh.encode TimeoutCertificate _ x
  | validatorSetUpdateDecided, x => @Borsh.encode Bool _ x

def decode : (v : Var) → List Byte → Option v.Val
  | blockHeight _, bs | highestViewEntered, bs | validatorSetUpdateBlockHeight, bs
  | highestViewPhaseVoted, bs => @Borsh.deserialize U64 _ bs
  | blockJustify _, bs | lockedPc, bs | highestPc, bs =>
    @Borsh.deserialize PhaseCertificate _ bs
  | blockDataHash _, bs | blockAtHeight _, bs | highestCommittedBlock, bs | newestBlock, bs =>
    @Borsh.deserialize CryptoHash _ bs
  | blockDataLen _, bs => @Borsh.deserialize U32 _ bs
  | blockDatum _ _, bs | committedAppState _, bs => some bs
  | blockToChildren _, bs => @Borsh.deserialize (List CryptoHash) _ bs
  | pendingAppStateUpdates _, bs => @Borsh.deserialize AppStateUpdates _ bs
  | committedValidatorSet, bs | previousValidatorSet, bs =>
    @Borsh.deserialize ValidatorSet _ bs
  | validatorSetUpdatesStatus _, bs => @Borsh.deserialize ValidatorSetUpdatesStatus _ bs
  | highestTc, bs => @Borsh.deserialize TimeoutCertificate _ bs
  | validatorSetUpdateDecided, bs => @Borsh.deserialize Bool _ bs

theorem decode_encode {v : Var} {x : v.Val} {bs : List Byte} (h : v.encode x = some bs) :
    v.decode bs = some x := by
  cases v with
  | blockDatum b i => exact (show some x = some bs from h).symm
  | committedAppState k => exact (show some x = some bs from h).symm
  | _ => exact Borsh.deserialize_encode h

/-- The variable as errors name it. -/
def errorKey : Var → Key
  | blockHeight b => .blockHeight b
  | blockJustify b => .blockJustify b
  | blockDataHash b => .blockDataHash b
  | blockDataLen b => .blockDataLength b
  | blockDatum b _ => .blockData b
  | blockAtHeight h => .blockAtHeight h
  | blockToChildren b => .blockChildren b
  | committedAppState k => .committedAppState k
  | pendingAppStateUpdates b => .pendingAppStateUpdates b
  | committedValidatorSet => .committedValidatorSet
  | validatorSetUpdatesStatus b => .validatorSetUpdatesStatus b
  | lockedPc => .lockedPC
  | highestViewEntered => .highestViewEntered
  | highestPc => .highestPC
  | highestCommittedBlock => .highestCommittedBlock
  | newestBlock => .newestBlock
  | highestTc => .highestTC
  | previousValidatorSet => .committedValidatorSet
  | validatorSetUpdateBlockHeight => .validatorSetUpdateHeight
  | validatorSetUpdateDecided => .validatorSetUpdateDecided
  | highestViewPhaseVoted => .highestViewPhaseVoted

end Var

/-! ## The store of bytes under a block tree -/

/-- The user's key-value store. -/
abbrev KVStore := Store fun _ : List Byte => List Byte

namespace KVStore

def kv (st : KVStore) : KVGet where
  get v :=
    match st v.key with
    | none => .ok none
    | some bs =>
      match v.decode bs with
      | some x => .ok (some x)
      | none => .error (.error (.kvGetError (.deserializeValueError v.errorKey)))

def encodeOp : Op Var.Val → Option (Op fun _ : List Byte => List Byte)
  | .set v x => (v.encode x).map fun bs => .set v.key bs
  | .delete v => some (.delete v.key)

/-- A batch as it reaches the store, if all its values serialize. -/
def encodeBatch (wb : WriteBatch) : Option (Batch fun _ : List Byte => List Byte) :=
  wb.mapM encodeOp

theorem get_apply_encodeOp (st : KVStore) {o : Op Var.Val} {o' : Op fun _ : List Byte => List Byte}
    (h : encodeOp o = some o') (v : Var) :
    (kv (st.apply o')).get v =
      if hv : o.key = v then .ok (hv ▸ o.value) else (kv st).get v := by
  have hkey : o'.key = o.key.key := by
    cases o with
    | set w x => obtain ⟨bs, -, rfl⟩ := Option.map_eq_some_iff.mp h; rfl
    | delete w => obtain rfl := Option.some.inj h; rfl
  by_cases hv : o.key = v
  · subst hv
    rw [dif_pos rfl]
    cases o with
    | set w x =>
      obtain ⟨bs, hbs, rfl⟩ := Option.map_eq_some_iff.mp h
      simp only [kv, Op.key, Store.apply_set, Var.decode_encode hbs, Op.value]
    | delete w =>
      obtain rfl := Option.some.inj h
      simp only [kv, Op.key, Store.apply_delete, Op.value]
  · have hne : v.key ≠ o'.key := fun he => hv (Var.key_inj (hkey ▸ he.symm))
    rw [dif_neg hv]
    simp only [kv, Store.apply_of_ne st hne]

/-- The variables read back as the batch left them, and else as they were. -/
theorem get_write {st : KVStore} {wb : WriteBatch} {bb : Batch fun _ : List Byte => List Byte}
    (h : encodeBatch wb = some bb) (v : Var) :
    (kv (st.write bb)).get v = (Batch.result? v wb).elim ((kv st).get v) .ok := by
  induction wb generalizing st bb with
  | nil =>
    obtain rfl := Option.some.inj h
    rfl
  | cons o wb ih =>
    simp only [encodeBatch, List.mapM_cons, Option.pure_def, Option.bind_eq_bind,
      Option.bind_eq_some_iff, Option.some.injEq] at h
    obtain ⟨o', ho, bb, hbb, rfl⟩ := h
    rw [Store.write_cons, ih hbb, Batch.result?, get_apply_encodeOp st ho]
    cases Batch.result? v wb with
    | some r => rfl
    | none => by_cases hv : o.key = v <;> simp [hv]

end KVStore
end HotStuffRs
