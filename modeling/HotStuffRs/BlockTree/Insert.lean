import HotStuffRs.BlockTree.Commit

namespace HotStuffRs
namespace BlockTree

open Forest Kv

variable {s : BlockTree} {block : Block} {appStateUpdates : Option AppStateUpdates}
variable {validatorSetUpdates : Option ValidatorSetUpdates}

/-- The operations of `insert`. -/
inductive InsertOp (s : BlockTree) (block : Block) (appStateUpdates : Option AppStateUpdates)
    (validatorSetUpdates : Option ValidatorSetUpdates) : Op Var.Val → Prop
  | block {o} (ho : o ∈ WriteBatch.setBlock block) :
    InsertOp s block appStateUpdates validatorSetUpdates o
  | newestBlock : InsertOp s block appStateUpdates validatorSetUpdates (.set .newestBlock block.hash)
  | appState {updates} (h : appStateUpdates = some updates) :
    InsertOp s block appStateUpdates validatorSetUpdates
      (.set (.pendingAppStateUpdates block.hash) updates)
  | validatorSet {updates} (h : validatorSetUpdates = some updates) :
    InsertOp s block appStateUpdates validatorSetUpdates
      (.set (.validatorSetUpdatesStatus block.hash) (.pending updates))
  | children :
    InsertOp s block appStateUpdates validatorSetUpdates
      (.set (.blockToChildren block.justify.block) (s.childrenOf block.justify.block ++ [block.hash]))

theorem mem_insertBatch {o : Op Var.Val} :
    o ∈ s.insertBatch block appStateUpdates validatorSetUpdates ↔
      InsertOp s block appStateUpdates validatorSetUpdates o := by
  simp only [insertBatch, List.mem_append, WriteBatch.setNewestBlock, List.mem_singleton,
    WriteBatch.setChildren, ok?_kv_children]
  constructor
  · rintro ((((ho | rfl) | ho) | ho) | rfl)
    · exact .block ho
    · exact .newestBlock
    · cases appStateUpdates with
      | none => cases ho
      | some updates =>
        obtain rfl := List.mem_singleton.mp ho
        exact .appState rfl
    · cases validatorSetUpdates with
      | none => cases ho
      | some updates =>
        obtain rfl := List.mem_singleton.mp ho
        exact .validatorSet rfl
    · exact .children
  · intro ho
    cases ho with
    | block ho => exact .inl (.inl (.inl (.inl ho)))
    | newestBlock => exact .inl (.inl (.inl (.inr rfl)))
    | appState h => subst h; exact .inl (.inl (.inr (List.mem_singleton.mpr rfl)))
    | validatorSet h => subst h; exact .inl (.inr (List.mem_singleton.mpr rfl))
    | children => exact .inr rfl

theorem key_of_mem_setBlock {o : Op Var.Val} (ho : o ∈ WriteBatch.setBlock block) :
    o.key.isField = true ∧ o.key.block? = some block.hash := by
  simp only [WriteBatch.setBlock, List.cons_append, List.nil_append, List.mem_cons,
    List.mem_map] at ho
  rcases ho with rfl | rfl | rfl | rfl | ⟨_, -, rfl⟩ <;> exact ⟨rfl, rfl⟩

/-- The fields of other blocks stay as they are. -/
theorem field_insert_of_ne {v : Var} {x : CryptoHash} (hfield : v.isField = true)
    (hv : v.block? = some x) (hx : x ≠ block.hash) :
    s.insert block appStateUpdates validatorSetUpdates v = s v := by
  refine Store.write_of_notMem s fun o ho hkey => ?_
  cases mem_insertBatch.mp ho with
  | block ho =>
    have hblock := (key_of_mem_setBlock ho).2
    rw [← hkey, hv, Option.some.injEq] at hblock
    exact hx hblock
  | newestBlock => rw [hkey] at hv; cases hv
  | appState => rw [hkey] at hfield; cases hfield
  | validatorSet => rw [hkey] at hfield; cases hfield
  | children => rw [hkey] at hfield; cases hfield

/-- What is not about a block stays, except for the newest block. -/
theorem insert_of_block?_eq_none {v : Var} (hv : v.block? = none) (hnewest : v ≠ .newestBlock) :
    s.insert block appStateUpdates validatorSetUpdates v = s v := by
  refine Store.write_of_notMem s fun o ho hkey => ?_
  cases mem_insertBatch.mp ho with
  | block ho =>
    have hblock := (key_of_mem_setBlock ho).2
    rw [← hkey, hv] at hblock
    cases hblock
  | newestBlock => exact hnewest hkey
  | appState => rw [hkey] at hv; cases hv
  | validatorSet => rw [hkey] at hv; cases hv
  | children => rw [hkey] at hv; cases hv

theorem newestBlock_insert :
    s.insert block appStateUpdates validatorSetUpdates .newestBlock = some block.hash := by
  refine Store.write_of_unique s (mem_insertBatch.mpr .newestBlock) fun o ho hkey => ?_
  cases mem_insertBatch.mp ho with
  | block ho =>
    have hfield := (key_of_mem_setBlock ho).1
    rw [hkey] at hfield
    cases hfield
  | newestBlock => rfl
  | appState => cases hkey
  | validatorSet => cases hkey
  | children => cases hkey

/-- The fields of the block itself. -/
theorem field_insert {o : Op Var.Val} (ho : o ∈ (WriteBatch.setBlock block).take 4) :
    s.insert block appStateUpdates validatorSetUpdates o.key = o.value := by
  have hmem := List.mem_of_mem_take ho
  refine Store.write_of_unique s (mem_insertBatch.mpr (.block hmem)) fun o' ho' hkey => ?_
  have hfield := (key_of_mem_setBlock hmem).1
  rw [← hkey] at hfield
  cases mem_insertBatch.mp ho' with
  | block ho' => exact WriteBatch.eq_of_key_setBlock ho ho' hkey
  | newestBlock => cases hfield
  | appState => cases hfield
  | validatorSet => cases hfield
  | children => cases hfield

theorem height_insert :
    s.insert block appStateUpdates validatorSetUpdates (.blockHeight block.hash) =
      some block.height :=
  field_insert (o := .set (.blockHeight block.hash) block.height) (by simp [WriteBatch.setBlock])

theorem justify_insert :
    s.insert block appStateUpdates validatorSetUpdates (.blockJustify block.hash) =
      some block.justify :=
  field_insert (o := .set (.blockJustify block.hash) block.justify) (by simp [WriteBatch.setBlock])

theorem dataHash_insert :
    s.insert block appStateUpdates validatorSetUpdates (.blockDataHash block.hash) =
      some block.dataHash :=
  field_insert (o := .set (.blockDataHash block.hash) block.dataHash)
    (by simp [WriteBatch.setBlock])

theorem dataLen_insert :
    s.insert block appStateUpdates validatorSetUpdates (.blockDataLen block.hash) =
      some (Data.len block.data) :=
  field_insert (o := .set (.blockDataLen block.hash) (Data.len block.data))
    (by simp [WriteBatch.setBlock])

/-- All datums that the data length promises are there.  It is the number of datums
modulo `2 ^ 32`, and indices wrap around in the same way. -/
theorem datum_insert {i : Nat} (hi : i < (Data.len block.data).val) :
    (s.insert block appStateUpdates validatorSetUpdates
      (.blockDatum block.hash (Fin.ofNat _ i))).isSome = true := by
  have hlt : i < block.data.length := lt_of_lt_of_le hi (Nat.mod_le _ _)
  have hmem : (.set (.blockDatum block.hash (Fin.ofNat _ i)) block.data[i] : Op Var.Val) ∈
      WriteBatch.setBlock block := by
    refine List.mem_append_right _ (List.mem_map.mpr ⟨(block.data[i], i), ?_, rfl⟩)
    exact List.mk_mem_zipIdx_iff_getElem?.mpr (List.getElem?_eq_getElem hlt)
  refine Store.write_of_set s (mem_insertBatch.mpr (.block hmem)) fun ho => ?_
  cases mem_insertBatch.mp ho with
  | block ho => simp [WriteBatch.setBlock] at ho

/-- The parent of the block has it for a child, and the other children lists stay. -/
theorem children_insert (p : CryptoHash) :
    (s.insert block appStateUpdates validatorSetUpdates).childrenOf p =
      if p = block.justify.block then s.childrenOf p ++ [block.hash] else s.childrenOf p := by
  split
  · rename_i hp
    subst hp
    have ho : (.set (.blockToChildren block.justify.block)
        (s.childrenOf block.justify.block ++ [block.hash]) : Op Var.Val) ∈
        s.insertBatch block appStateUpdates validatorSetUpdates := mem_insertBatch.mpr .children
    have hwrite : s.insert block appStateUpdates validatorSetUpdates
        (.blockToChildren block.justify.block) =
        some (s.childrenOf block.justify.block ++ [block.hash]) := by
      refine Store.write_of_unique s ho fun o' ho' hkey => ?_
      cases mem_insertBatch.mp ho' with
      | block ho' =>
        have hfield := (key_of_mem_setBlock ho').1
        rw [hkey] at hfield
        cases hfield
      | newestBlock => cases hkey
      | appState => cases hkey
      | validatorSet => cases hkey
      | children => rfl
    rw [childrenOf, hwrite]
    rfl
  · rename_i hp
    have hwrite : s.insert block appStateUpdates validatorSetUpdates (.blockToChildren p) =
        s (.blockToChildren p) := by
      refine Store.write_of_notMem s fun o ho hkey => ?_
      cases mem_insertBatch.mp ho with
      | block ho =>
        have hfield := (key_of_mem_setBlock ho).1
        rw [← hkey] at hfield
        cases hfield
      | newestBlock => cases hkey
      | appState => cases hkey
      | validatorSet => cases hkey
      | children => exact hp (by simpa using hkey)
    rw [childrenOf, hwrite]
    rfl

theorem up_insert (x : CryptoHash) :
    (s.insert block appStateUpdates validatorSetUpdates).up x =
      if x = block.hash then some block.justify.block else s.up x := by
  split
  · rename_i hx
    rw [hx, up, justify_insert]
    rfl
  · rename_i hx
    rw [up, field_insert_of_ne rfl rfl hx]
    rfl

theorem stored_insert (x : CryptoHash) :
    (s.insert block appStateUpdates validatorSetUpdates).Stored x ↔
      x = block.hash ∨ s.Stored x := by
  simp only [stored_iff_up, up_insert]
  by_cases hx : x = block.hash
  · simp [hx]
  · simp [hx]

theorem isSome_insert_iff (f : CryptoHash → Var) (hfield : ∀ x, (f x).isField = true)
    (hblock : ∀ x, (f x).block? = some x) (hs : ∀ x, (s (f x)).isSome = true ↔ s.Stored x)
    (hnew : (s.insert block appStateUpdates validatorSetUpdates (f block.hash)).isSome = true)
    (x : CryptoHash) :
    (s.insert block appStateUpdates validatorSetUpdates (f x)).isSome = true ↔
      (s.insert block appStateUpdates validatorSetUpdates).Stored x := by
  rw [stored_insert]
  by_cases hx : x = block.hash
  · subst hx
    simp [hnew]
  · simp [hx, field_insert_of_ne (hfield x) (hblock x) hx, hs]

section WellFormed

variable (wf : s.WellFormed) (hhash : block.hash ≠ 0)
  (hparent : block.justify = .genesisPc ∨ s.Stored block.justify.block)
  (hsame : ∀ j, s (.blockJustify block.hash) = some j → j = block.justify)
include wf hsame

include hhash hparent in
/-- A new block is a leaf, and one that is there already adds no link. -/
theorem WellFormed.acyclic_insert :
    Acyclic (s.insert block appStateUpdates validatorSetUpdates).up := by
  by_cases hstored : s.Stored block.hash
  · refine wf.acyclic.mono fun x p hx => ?_
    rw [up_insert] at hx
    split at hx
    · rename_i hxb
      obtain ⟨j, hj⟩ := Option.isSome_iff_exists.mp hstored
      rw [hxb, up, hj, hsame j hj]
      exact hx
    · exact hx
  · have hnew : (s.insert block appStateUpdates validatorSetUpdates).up block.hash =
        some block.justify.block := by simp [up_insert]
    refine wf.acyclic.insert_leaf (fun x hx => ?_) ?_ hnew fun x hx => by simp [up_insert, hx]
    · obtain ⟨j, hj, hjb⟩ := up_eq_some.mp hx
      rcases wf.parent x j hj with rfl | hparent
      · exact hhash hjb.symm
      · exact hstored (hjb ▸ hparent)
    · rcases hparent with hgenesis | hparent
      · rw [hgenesis]
        exact Ne.symm hhash
      · rintro h
        exact hstored (h ▸ hparent)

theorem WellFormed.mem_children_insert (p c : CryptoHash) :
    c ∈ (s.insert block appStateUpdates validatorSetUpdates).childrenOf p ↔
      (s.insert block appStateUpdates validatorSetUpdates).up c = some p := by
  rw [children_insert, up_insert]
  by_cases hc : c = block.hash
  · subst hc
    by_cases hp : p = block.justify.block
    · simp [hp]
    · simp only [hp, if_false, wf.mem_children, if_true, Option.some.injEq]
      refine ⟨fun h => ?_, fun h => (hp h.symm).elim⟩
      obtain ⟨j, hj, rfl⟩ := up_eq_some.mp h
      rw [hsame j hj]
  · by_cases hp : p = block.justify.block
    · simp [hp, hc, wf.mem_children]
    · simp [hp, hc, wf.mem_children]

include hhash hparent in
/-- Inserting a block below a stored one, or below genesis, keeps the tree well-formed,
provided that a stored block with the same hash has the same justify. -/
theorem WellFormed.insert :
    (s.insert block appStateUpdates validatorSetUpdates).WellFormed where
  height := isSome_insert_iff .blockHeight (fun _ => rfl) (fun _ => rfl) wf.height
    (by rw [height_insert]; rfl)
  dataHash := isSome_insert_iff .blockDataHash (fun _ => rfl) (fun _ => rfl) wf.dataHash
    (by rw [dataHash_insert]; rfl)
  dataLen := isSome_insert_iff .blockDataLen (fun _ => rfl) (fun _ => rfl) wf.dataLen
    (by rw [dataLen_insert]; rfl)
  datum b len hlen i hi := by
    by_cases hb : b = block.hash
    · subst hb
      rw [dataLen_insert, Option.some.injEq] at hlen
      exact datum_insert (hlen ▸ hi)
    · rw [field_insert_of_ne rfl rfl hb] at hlen ⊢
      exact wf.datum b len hlen i hi
  genesis := by
    rw [stored_insert]
    exact not_or.mpr ⟨Ne.symm hhash, wf.genesis⟩
  parent b j hj := by
    simp only [stored_insert]
    by_cases hb : b = block.hash
    · subst hb
      rw [justify_insert, Option.some.injEq] at hj
      subst hj
      exact hparent.imp_right .inr
    · rw [field_insert_of_ne rfl rfl hb] at hj
      exact (wf.parent b j hj).imp_right .inr
  acyclic := wf.acyclic_insert hhash hparent hsame
  mem_children := wf.mem_children_insert hsame

end WellFormed

/-- No block with the hash of `block` is in the tree, or one that is the same but for data. -/
structure Fresh (s : BlockTree) (block : Block) : Prop where
  hash : block.hash ≠ 0
  same : ∀ j, s (.blockJustify block.hash) = some j →
    j = block.justify ∧ s (.blockHeight block.hash) = some block.height

theorem height_insert_of_fresh (wf : s.WellFormed) (hfresh : s.Fresh block) {b : CryptoHash}
    {height : BlockHeight} (hb : s (.blockHeight b) = some height) :
    s.insert block appStateUpdates validatorSetUpdates (.blockHeight b) = some height := by
  by_cases hhash : b = block.hash
  · subst hhash
    obtain ⟨j, hj⟩ := Option.isSome_iff_exists.mp (wf.stored_of_height hb)
    rw [← hb, (hfresh.same j hj).2]
    exact height_insert
  · rw [field_insert_of_ne rfl rfl hhash]
    exact hb

/-- Well-formedness only depends on the variables of blocks. -/
theorem WellFormed.congr (wf : s.WellFormed) {s' : BlockTree}
    (hkeep : ∀ v x, v.block? = some x → s' v = s v) : s'.WellFormed := by
  have hup : s'.up = s.up := by
    funext x
    rw [up, hkeep _ x rfl]
    rfl
  have hstored : ∀ x, s'.Stored x ↔ s.Stored x := fun x => by
    rw [Stored, hkeep _ x rfl]
    rfl
  constructor
  · exact fun x => by rw [hkeep _ x rfl, hstored]; exact wf.height x
  · exact fun x => by rw [hkeep _ x rfl, hstored]; exact wf.dataHash x
  · exact fun x => by rw [hkeep _ x rfl, hstored]; exact wf.dataLen x
  · exact fun x len hlen i hi => by
      rw [hkeep _ x rfl] at hlen ⊢
      exact wf.datum x len hlen i hi
  · rw [hstored]
    exact wf.genesis
  · exact fun x j hj => by
      rw [hkeep _ x rfl] at hj
      rw [hstored]
      exact wf.parent x j hj
  · rw [hup]
    exact wf.acyclic
  · exact fun p c => by
      rw [hup, childrenOf, hkeep _ p rfl]
      exact wf.mem_children p c

end BlockTree
end HotStuffRs
