import HotStuffRs.BlockTree.CommittedChain

/-
The index of committed blocks.

`commit` writes the name of a block under its height.  Where the committed blocks are a chain,
this begins with a child of the genesis placeholder, and the index is the chain, read by the
position of its blocks.
-/

namespace HotStuffRs
namespace BlockTree

open Forest Kv

variable {s : BlockTree} {cs : List CryptoHash}

/-- The committed blocks `cs` are all that are named by their heights, from genesis on, and
there is a newest block as soon as there is any. -/
structure IndexedChain (s : BlockTree) (cs : List CryptoHash) : Prop extends CommittedChain s cs where
  rooted : ∀ b, cs.head? = some b → s (.blockJustify b) = some .genesisPc
  index : ∀ height b, s (.blockAtHeight height) = some b → b ∈ cs ∧ s (.blockHeight b) = some height
  newest : s .newestBlock = none → ∀ b, ¬s.Stored b

/-- Without a highest committed block, a commit goes up to the first block. -/
theorem Walk.rooted (wf : s.WellFormed) {cursor : Option CryptoHash} {us : List CryptoHash}
    (h : Walk s none cursor us) (hcursor : ∀ b ∈ cursor, s.Stored b) {b : CryptoHash}
    (hb : us.getLast? = some b) : s (.blockJustify b) = some .genesisPc := by
  induction h with
  | root => cases hb
  | stop hmin => cases hmin
  | @step c us _ rest ih =>
    cases hp : s.parent c with
    | none =>
      rw [hp] at rest
      cases rest
      obtain rfl : c = b := by simpa using hb
      obtain ⟨j, hj⟩ := Option.isSome_iff_exists.mp (hcursor c rfl)
      by_contra hne
      have hparent : s.parent c = some j.block :=
        parent_eq_some.mpr ⟨j, hj, fun hgenesis => hne (hgenesis ▸ hj), rfl⟩
      rw [hp] at hparent
      cases hparent
    | some p =>
      rw [hp] at rest ih
      obtain ⟨rest', hrest⟩ : ∃ rest', us = p :: rest' := by
        cases rest with
        | stop hmin => cases hmin
        | step => exact ⟨_, rfl⟩
      refine ih (fun q hq => ?_) ?_
      · obtain rfl := Option.some.inj hq
        exact wf.stored_of_parent hp
      · rw [hrest, List.getLast?_cons_cons] at hb
        rw [hrest]
        exact hb

namespace IndexedChain

theorem initial {appState : AppStateUpdates} {vss : ValidatorSetState} :
    IndexedChain (BlockTree.initial appState vss) [] where
  toCommittedChain := CommittedChain.initial
  rooted b hb := by cases hb
  index height b hb := by
    have hnone : BlockTree.initial appState vss (.blockAtHeight height) = none :=
      initial_eq_none (by simp [initialOps]) (by simp) (by simp)
    rw [hnone] at hb
    cases hb
  newest _ := not_stored_initial

variable (h : s.IndexedChain cs)
include h

theorem congr {s' : BlockTree} (hblock : ∀ v x, v.block? = some x → s' v = s v)
    (hhighest : s' .highestCommittedBlock = s .highestCommittedBlock)
    (hnewest : s' .newestBlock = s .newestBlock)
    (hnamed : ∀ height, s' (.blockAtHeight height) = s (.blockAtHeight height)) :
    IndexedChain s' cs where
  toCommittedChain := h.toCommittedChain.congr hblock hhighest hnamed
  rooted b hb := by
    rw [hblock _ b rfl]
    exact h.rooted b hb
  index height b hb := by
    rw [hblock _ b rfl]
    exact h.index height b (hnamed height ▸ hb)
  newest hnone b := by
    rw [Stored, hblock _ b rfl]
    exact h.newest (hnewest ▸ hnone) b

theorem insert {block : Block} {appStateUpdates : Option AppStateUpdates}
    {validatorSetUpdates : Option ValidatorSetUpdates} (hblock : s.InsertedAbove block)
    (hparent : block.justify = .genesisPc ∨ s.Stored block.justify.block) :
    (s.insert block appStateUpdates validatorSetUpdates).IndexedChain cs where
  toCommittedChain := h.toCommittedChain.insert hblock hparent
  rooted b hb := by
    have hj := h.rooted b hb
    by_cases hhash : b = block.hash
    · subst hhash
      rw [justify_insert, ← (hblock.fresh.same _ hj).1]
    · rw [field_insert_of_ne rfl rfl hhash]
      exact hj
  index height b hb := by
    rw [insert_of_block?_eq_none rfl (by simp)] at hb
    obtain ⟨hmem, hheight⟩ := h.index height b hb
    exact ⟨hmem, height_insert_of_fresh h.wf hblock.fresh hheight⟩
  newest hnone := by
    rw [newestBlock_insert] at hnone
    cases hnone

section update

variable {justify : PhaseCertificate} {fuel : Nat} {wb : WriteBatch}
  {updates : Option ValidatorSetUpdates}

/-- An update leaves the fields of the committed blocks as they are, of those that it commits,
too. -/
theorem field_update (habove : s.CommitsAbove justify)
    (hupdate : s.updateBatch fuel justify = .ok (wb, updates)) {v : Var} {b : CryptoHash}
    (hv : v.isField = true) (hvb : v.block? = some b) (hb : b ∈ cs ++ wb.committedBlocks) :
    s.write wb v = s v := by
  obtain ⟨commitBatch, hcommits, hwrite⟩ := commitsFor_committedBlocks h.wf hupdate
  have hdecided : v ≠ .validatorSetUpdateDecided := by
    rintro rfl
    cases hvb
  rw [hwrite v (Var.isProgress_of_block? hvb) hdecided]
  rcases hcommits with ⟨target, htarget, hcommits⟩ | ⟨-, -, rfl⟩
  · refine hcommits.field_write hv hvb (h.not_prunes hcommits (fun highest => ?_) ?_)
    · exact habove target highest htarget
    · rw [List.reverse_reverse]
      exact hb
  · rfl

theorem rooted_update (habove : s.CommitsAbove justify)
    (hupdate : s.updateBatch fuel justify = .ok (wb, updates)) {b : CryptoHash}
    (hb : (cs ++ wb.committedBlocks).head? = some b) :
    s.write wb (.blockJustify b) = some .genesisPc := by
  rw [h.field_update habove hupdate rfl rfl (List.mem_of_head? hb)]
  cases hcs : cs with
  | cons c cs' =>
    rw [hcs] at hb
    refine h.rooted b ?_
    rw [hcs]
    exact hb
  | nil =>
    rw [hcs, List.nil_append] at hb
    obtain ⟨commitBatch, hcommits, -⟩ := commitsFor_committedBlocks h.wf hupdate
    rcases hcommits with ⟨target, htarget, hcommits⟩ | ⟨-, hnil, -⟩
    · have hnone : s.committedHeight = none := by
        rw [committedHeight, h.highest, hcs]
        rfl
      have hwalk := hcommits.walk
      rw [hnone] at hwalk
      refine hwalk.rooted h.wf (fun x hx => ?_) ?_
      · obtain rfl := Option.some.inj hx
        exact stored_of_blockToCommit h.wf htarget
      · rw [List.getLast?_reverse]
        exact hb
    · rw [List.reverse_eq_nil_iff.mp hnil] at hb
      cases hb

theorem index_update (habove : s.CommitsAbove justify)
    (hupdate : s.updateBatch fuel justify = .ok (wb, updates)) {height : BlockHeight}
    {b : CryptoHash} (hb : s.write wb (.blockAtHeight height) = some b) :
    b ∈ cs ++ wb.committedBlocks ∧ s.write wb (.blockHeight b) = some height := by
  have hfound : b ∈ cs ++ wb.committedBlocks ∧ s (.blockHeight b) = some height := by
    obtain ⟨commitBatch, hcommits, hwrite⟩ := commitsFor_committedBlocks h.wf hupdate
    rw [hwrite _ rfl (by simp)] at hb
    have hkept : s (.blockAtHeight height) = some b →
        b ∈ cs ++ wb.committedBlocks ∧ s (.blockHeight b) = some height :=
      fun hb => (h.index height b hb).imp_left (List.mem_append_left _)
    rcases hcommits with ⟨target, -, hcommits⟩ | ⟨-, -, rfl⟩
    · rcases Store.cases_of_write s hb with hset | ⟨-, hb⟩
      · obtain ⟨c, hc, hheight, hop⟩ := hcommits.op_blockAtHeight hset rfl
        obtain rfl : b = c := by simpa using hop
        exact ⟨List.mem_append_right _ (List.mem_reverse.mp hc), hheight⟩
      · exact hkept hb
    · exact hkept hb
  refine ⟨hfound.1, ?_⟩
  rw [h.field_update habove hupdate rfl rfl hfound.1]
  exact hfound.2

theorem update (habove : s.CommitsAbove justify)
    (hupdate : s.updateBatch fuel justify = .ok (wb, updates)) :
    IndexedChain (s.write wb) (cs ++ wb.committedBlocks) where
  toCommittedChain := (h.toCommittedChain.update habove hupdate).1
  rooted _ := h.rooted_update habove hupdate
  index _ _ := h.index_update habove hupdate
  newest hnone b hb := by
    rw [write_update_of_isProgress hupdate rfl (by simp) (by simp)] at hnone
    have hstored : s.Stored b := by
      rcases field_write_update hupdate (v := .blockJustify b) rfl with hkept | hgone
      · rw [Stored, hkept] at hb
        exact hb
      · rw [Stored, hgone] at hb
        cases hb
    exact h.newest hnone b hstored

end update

/-! ## Heights as positions -/

/-- The height of a committed block is its position. -/
theorem height_getElem (i : Nat) (hi : i < cs.length) :
    ∃ height, s (.blockHeight cs[i]) = some height ∧ height.val = i := by
  induction i with
  | zero =>
    obtain ⟨height, hheight⟩ := h.wf.exists_height (h.stored _ (List.getElem_mem hi))
    have hhead : cs.head? = some cs[0] := by
      rw [List.head?_eq_getElem?, List.getElem?_eq_getElem hi]
    exact ⟨height, hheight, h.heights.of_genesisPc (h.rooted _ hhead) hheight⟩
  | succ i ih =>
    obtain ⟨parentHeight, hparent, hval⟩ := ih (Nat.lt_of_succ_lt hi)
    obtain ⟨height, hheight⟩ := h.wf.exists_height (h.stored _ (List.getElem_mem hi))
    have hup : s.up cs[i + 1] = some cs[i] := List.isChain_iff_getElem.mp h.linked i hi
    have hsucc := h.heights.of_up h.wf hup hheight hparent
    exact ⟨height, hheight, by omega⟩

/-- The index is the chain. -/
theorem blockAtHeight_eq (height : BlockHeight) : s (.blockAtHeight height) = cs[height.val]? := by
  cases hget : cs[height.val]? with
  | some b =>
    obtain ⟨hi, rfl⟩ := List.getElem?_eq_some_iff.mp hget
    obtain ⟨height', hheight, hval⟩ := h.height_getElem height.val hi
    obtain rfl : height' = height := Fin.ext hval
    exact h.named _ (List.getElem_mem hi) height' hheight
  | none =>
    cases hs : s (.blockAtHeight height) with
    | none => rfl
    | some b =>
      obtain ⟨hmem, hheight⟩ := h.index height b hs
      obtain ⟨i, hi, rfl⟩ := List.getElem_of_mem hmem
      obtain ⟨height', hheight', hval⟩ := h.height_getElem i hi
      obtain rfl := Option.some.inj (hheight.symm.trans hheight')
      have hle : cs.length ≤ height.val := List.getElem?_eq_none_iff.mp hget
      omega

theorem length_eq {highest : CryptoHash} {height : BlockHeight}
    (hhighest : s .highestCommittedBlock = some highest)
    (hheight : s (.blockHeight highest) = some height) : cs.length = height.val + 1 := by
  have hlast : cs.getLast? = some highest := h.highest.symm.trans hhighest
  rw [List.getLast?_eq_getElem?] at hlast
  obtain ⟨hi, hget⟩ := List.getElem?_eq_some_iff.mp hlast
  obtain ⟨height', hheight', hval⟩ := h.height_getElem (cs.length - 1) hi
  rw [hget] at hheight'
  obtain rfl := Option.some.inj (hheight.symm.trans hheight')
  omega

theorem length_eq_committedHeight : cs.length = (s.committedHeight.map (·.val + 1)).getD 0 := by
  rw [committedHeight]
  cases hhighest : s .highestCommittedBlock with
  | none =>
    rw [h.highest, List.getLast?_eq_none_iff] at hhighest
    rw [hhighest]
    rfl
  | some highest =>
    obtain ⟨height, hheight⟩ :=
      h.wf.exists_height (h.stored highest (List.mem_of_getLast? (h.highest.symm.trans hhighest)))
    rw [Option.bind_some, hheight, h.length_eq hhighest hheight]
    rfl

end IndexedChain

end BlockTree
end HotStuffRs
