import HotStuffRs.BlockTree.Bytes

namespace HotStuffRs

open Kv

/-- `b` reads back as it was written. -/
structure ReadsBack (kv : KVGet) (b : Block) : Prop where
  block : kv.block b.hash = .ok (some b)
  blockData : kv.blockData b.hash = .ok (some b.data)
  blockDatum : ∀ (i : Nat) (hi : i < b.data.length),
    kv.blockDatum b.hash (Fin.ofNat _ i) = some b.data[i]

/-- Neither `b` nor any datum of it is left. -/
structure Removed (kv : KVGet) (b : Block) : Prop where
  block : kv.block b.hash = .ok none
  blockDatum : ∀ i < b.data.length, kv.blockDatum b.hash (Fin.ofNat _ i) = none

namespace WriteBatch

variable {b : Block}

theorem ofNat_inj {i j : Nat} (hi : i < 2 ^ 32) (hj : j < 2 ^ 32)
    (h : Fin.ofNat (2 ^ 32) i = Fin.ofNat _ j) : i = j := by
  have hval := congrArg Fin.val h
  rwa [Fin.val_ofNat, Fin.val_ofNat, Nat.mod_eq_of_lt hi, Nat.mod_eq_of_lt hj] at hval

theorem len_val (hlen : b.data.length < 2 ^ 32) : (Data.len b.data).val = b.data.length :=
  Nat.mod_eq_of_lt hlen

/-- The operation on a datum of `b` that `setBlock` queues. -/
theorem mem_setBlock_datum {o : Op Var.Val} (ho : o ∈ setBlock b) {i : U32}
    (hk : o.key = .blockDatum b.hash i) :
    ∃ (j : Nat) (hj : j < b.data.length), i = Fin.ofNat _ j ∧
      o = .set (.blockDatum b.hash (Fin.ofNat _ j)) b.data[j] := by
  simp only [setBlock, List.cons_append, List.nil_append, List.mem_cons, List.mem_map] at ho
  rcases ho with rfl | rfl | rfl | rfl | ⟨⟨d, j⟩, hd, rfl⟩
  · cases hk
  · cases hk
  · cases hk
  · cases hk
  · have hd := List.mk_mem_zipIdx_iff_getElem?.mp hd
    obtain ⟨hj, hd⟩ := List.getElem?_eq_some_iff.mp hd
    simp only [Op.key_set, Var.blockDatum.injEq, true_and] at hk
    exact ⟨j, hj, hk.symm, by rw [hd]⟩

theorem result?_setBlock_datum (hlen : b.data.length < 2 ^ 32) {i : Nat}
    (hi : i < b.data.length) :
    Batch.result? (.blockDatum b.hash (Fin.ofNat _ i)) (setBlock b) = some (some b.data[i]) := by
  refine Batch.result?_of_unique
    (o := (.set (.blockDatum b.hash (Fin.ofNat _ i)) b.data[i] : Op Var.Val)) ?_ ?_
  · refine List.mem_append_right _ (List.mem_map.mpr ⟨(b.data[i], i), ?_, rfl⟩)
    exact List.mk_mem_zipIdx_iff_getElem?.mpr (List.getElem?_eq_getElem hi)
  · intro o ho hk
    obtain ⟨j, hj, hij, rfl⟩ := mem_setBlock_datum ho hk
    obtain rfl := ofNat_inj (by omega) (by omega) hij
    rfl

/-- The operations of `setBlock` on the fields of `b` other than its data. -/
theorem result?_setBlock_field {o : Op Var.Val}
    (ho : o ∈ (setBlock b).take 4) : Batch.result? o.key (setBlock b) = some o.value :=
  Batch.result?_of_unique (List.mem_of_mem_take ho) fun _ => eq_of_key_setBlock ho

theorem eq_delete_of_mem_deleteBlock {b : CryptoHash} {len : DataLen} {o : Op Var.Val}
    (ho : o ∈ deleteBlock b len) : o = .delete o.key := by
  simp only [deleteBlock, List.cons_append, List.nil_append, List.mem_cons, List.mem_map] at ho
  rcases ho with rfl | rfl | rfl | rfl | ⟨i, -, rfl⟩ <;> rfl

theorem result?_deleteBlock {b : CryptoHash} {len : DataLen} {v : Var}
    (hv : .delete v ∈ deleteBlock b len) :
    Batch.result? v (deleteBlock b len) = some none := by
  refine Batch.result?_of_unique (o := .delete v) hv fun o ho hk => ?_
  rw [eq_delete_of_mem_deleteBlock ho, hk]
  rfl

end WriteBatch

namespace KVStore

variable {b : Block} {wb : Batch fun _ : List Byte => List Byte}

/-- What the block getters return once `setBlock b` is written. -/
theorem readers_after_setBlock (st : KVStore) (hlen : b.data.length < 2 ^ 32)
    (hwb : encodeBatch (WriteBatch.setBlock b) = some wb) :
    (kv (st.write wb)).block b.hash = .ok (some { b with data := [] }) ∧
    (kv (st.write wb)).blockData b.hash = .ok (some []) ∧
    ∀ (i : Nat) (hi : i < b.data.length),
      (kv (st.write wb)).blockDatum b.hash (Fin.ofNat _ i) = some b.data[i] := by
  have hfield : ∀ o ∈ (WriteBatch.setBlock b).take 4,
      (kv (st.write wb)).get o.key = .ok o.value := by
    intro o ho
    rw [get_write hwb, WriteBatch.result?_setBlock_field ho]
    rfl
  have hdatum : ∀ (i : Nat) (hi : i < b.data.length),
      (kv (st.write wb)).blockDatum b.hash (Fin.ofNat _ i) = some b.data[i] := by
    intro i hi
    rw [KVGet.blockDatum, get_write hwb, WriteBatch.result?_setBlock_datum hlen hi]
    rfl
  have hheight := hfield (.set (.blockHeight b.hash) b.height) (by simp [WriteBatch.setBlock])
  have hjustify := hfield (.set (.blockJustify b.hash) b.justify) (by simp [WriteBatch.setBlock])
  have hhash := hfield (.set (.blockDataHash b.hash) b.dataHash) (by simp [WriteBatch.setBlock])
  have hdataLen := hfield (.set (.blockDataLen b.hash) (Data.len b.data))
    (by simp [WriteBatch.setBlock])
  have hdata : (kv (st.write wb)).blockData b.hash = .ok (some []) := by
    refine KVGet.blockData_of_datums hdataLen fun i hi => ?_
    rw [WriteBatch.len_val hlen] at hi
    rw [hdatum i hi]
    rfl
  refine ⟨KVGet.block_of_fields hheight ?_ hhash hdata, hdata, hdatum⟩
  rw [KVGet.blockJustify, KVGet.expect, show (kv (st.write wb)).get (.blockJustify b.hash) = _
    from hjustify]
  rfl

/-- What the block getters return once `deleteBlock` is written for `b`. -/
theorem removed_after_deleteBlock {st : KVStore} (hlen : b.data.length < 2 ^ 32)
    (hwb : encodeBatch (WriteBatch.deleteBlock b.hash (Data.len b.data)) = some wb) :
    Removed (kv (st.write wb)) b := by
  have hget : ∀ v, .delete v ∈ WriteBatch.deleteBlock b.hash (Data.len b.data) →
      (kv (st.write wb)).get v = .ok none := by
    intro v hv
    rw [get_write hwb, WriteBatch.result?_deleteBlock hv]
    rfl
  refine ⟨KVGet.block_of_no_height (hget _ (by simp [WriteBatch.deleteBlock])), fun i hi => ?_⟩
  rw [KVGet.blockDatum, hget]
  · rfl
  · refine List.mem_append_right _ (List.mem_map.mpr ⟨i, ?_, rfl⟩)
    rw [List.mem_range, WriteBatch.len_val hlen]
    exact hi

/-- A batch of deletions always serializes. -/
theorem encodeBatch_of_deletes {wb : WriteBatch} (h : ∀ o ∈ wb, o = .delete o.key) :
    ∃ bb, encodeBatch wb = some bb := by
  induction wb with
  | nil => exact ⟨[], rfl⟩
  | cons o wb ih =>
    obtain ⟨bb, hbb⟩ := ih fun o' ho' => h o' (List.mem_cons_of_mem _ ho')
    refine ⟨.delete o.key.key :: bb, ?_⟩
    rw [encodeBatch] at hbb ⊢
    rw [List.mapM_cons, hbb, h o List.mem_cons_self]
    rfl

/-- A stored block reads back as it was written exactly when it has no data. -/
theorem block_reads_back_iff (st st₂ : KVStore) (b : Block) (hlen : b.data.length < 2 ^ 32)
    (hwb : encodeBatch (WriteBatch.setBlock b) = some wb) :
    (ReadsBack (kv (st.write wb)) b ∧
      ∃ wd, encodeBatch (WriteBatch.deleteBlock b.hash (Data.len b.data)) = some wd ∧
        Removed (kv (st₂.write wd)) b) ↔
    b.data = [] := by
  obtain ⟨hblock, hdata, hdatum⟩ := readers_after_setBlock st hlen hwb
  constructor
  · rintro ⟨h, -⟩
    have := h.blockData
    rw [hdata] at this
    simpa using this.symm
  · intro h
    obtain ⟨wd, hwd⟩ := encodeBatch_of_deletes fun _ ho =>
      WriteBatch.eq_delete_of_mem_deleteBlock ho
    refine ⟨⟨?_, ?_, hdatum⟩, wd, hwd, removed_after_deleteBlock hlen hwd⟩
    · rw [hblock, ← h]
    · rw [hdata, h]

/-- A genesis block with the given data. -/
def sampleBlock (data : Data) : Block :=
  { height := 0, hash := 1, justify := .genesisPc, dataHash := 2, data }

/-- The batch that writes `sampleBlock data`. -/
def sampleBatch (data : Data) : Batch fun _ : List Byte => List Byte :=
  (encodeBatch (WriteBatch.setBlock (sampleBlock data))).getD []

theorem block_reads_back_iff_at_empty_data :
    (ReadsBack (kv (Store.empty.write (sampleBatch []))) (sampleBlock []) ∧
      ∃ wd, encodeBatch (WriteBatch.deleteBlock 1 (Data.len [])) = some wd ∧
        Removed (kv (Store.empty.write wd)) (sampleBlock [])) ↔
    (sampleBlock []).data = [] :=
  block_reads_back_iff .empty .empty (sampleBlock []) (by decide) rfl

/-- A block with one datum reads back without it. -/
theorem block_with_datum_reads_back_empty :
    encodeBatch (WriteBatch.setBlock (sampleBlock [[7]])) = some (sampleBatch [[7]]) ∧
    (kv (Store.empty.write (sampleBatch [[7]]))).block 1 = .ok (some (sampleBlock [])) ∧
    ¬ReadsBack (kv (Store.empty.write (sampleBatch [[7]]))) (sampleBlock [[7]]) := by
  have hwb : encodeBatch (WriteBatch.setBlock (sampleBlock [[7]])) = some (sampleBatch [[7]]) :=
    rfl
  obtain ⟨hblock, -⟩ := readers_after_setBlock .empty (by decide) hwb
  refine ⟨hwb, hblock, fun h => ?_⟩
  have hdata := hblock.symm.trans h.block
  simp [sampleBlock] at hdata

end KVStore
end HotStuffRs
