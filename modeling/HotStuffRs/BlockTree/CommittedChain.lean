import HotStuffRs.BlockTree.CommittedUpdates
import HotStuffRs.BlockTree.Heights

/-
The chain of committed blocks.

`commit` finds what is not committed yet by heights alone.  Where heights count justify links
and the block to commit extends the highest committed one, what it finds is the chain between
the two, and committing it makes the chain of committed blocks longer.
-/

namespace HotStuffRs
namespace BlockTree

open Forest Kv

variable {s : BlockTree} {target highest : CryptoHash} {us cs : List CryptoHash} {wb : WriteBatch}

/-! ## The blocks that an update commits -/

/-- A commit commits its walk, oldest first. -/
theorem walk_committedBlocks {fuel : Nat}
    {committed : List (CryptoHash × Option ValidatorSetUpdates)}
    (h : commit s fuel target = .ok (wb, committed)) :
    Walk s s.committedHeight (some target) wb.committedBlocks.reverse := by
  simp only [commit, kv_highestCommittedBlockHeight, Result.ok_bind, Result.bind_eq_ok,
    Result.pure_eq, Except.ok.injEq, Prod.mk.injEq] at h
  obtain ⟨us, hus, rounds, hrounds, rfl, -⟩ := h
  rw [(rounds_eq_ok hrounds).1, List.reverse_reverse]
  exact walk_of_uncommittedFrom hus

/-- The block to commit is the last that an update commits. -/
theorem getLast?_committedBlocks {justify : PhaseCertificate} {fuel : Nat}
    {updates : Option ValidatorSetUpdates} (h : s.updateBatch fuel justify = .ok (wb, updates))
    (htarget : s.blockToCommit justify = .ok (some target)) :
    wb.committedBlocks.getLast? = some target := by
  obtain ⟨height, hheight, habove⟩ := height_of_blockToCommit htarget
  obtain ⟨_, _, target', commitBatch, -, -, htarget', hcommit, -, rfl⟩ := updateBatch_eq_ok h
  obtain rfl : some target = target' := Except.ok.inj (htarget.symm.trans htarget')
  obtain ⟨committed, hcommit⟩ := hcommit target rfl
  rw [committedBlocks_updateBatch, ← List.head?_reverse]
  cases hreverse : commitBatch.committedBlocks.reverse with
  | nil =>
    have hwalk := walk_committedBlocks hcommit
    rw [hreverse] at hwalk
    cases hwalk with
    | stop hmin hb hle =>
      obtain rfl := Option.some.inj (hheight.symm.trans hb)
      rw [hmin] at habove
      exact absurd (of_decide_eq_true habove) (not_lt.mpr hle)
  | cons b rest =>
    have hwalk := walk_committedBlocks hcommit
    rw [hreverse] at hwalk
    cases hwalk
    rfl

/-- What `commitsFor_of_updateBatch` says, with the blocks as the batch commits them. -/
theorem commitsFor_committedBlocks (wf : s.WellFormed) {justify : PhaseCertificate} {fuel : Nat}
    {updates : Option ValidatorSetUpdates} (h : s.updateBatch fuel justify = .ok (wb, updates)) :
    ∃ commitBatch, CommitsFor s justify wb.committedBlocks.reverse commitBatch ∧
      ∀ v, v.isProgress = false → v ≠ .validatorSetUpdateDecided →
        s.write wb v = s.write commitBatch v := by
  obtain ⟨highest, new, target, commitBatch, -, -, htarget, hcommit, hnone, rfl⟩ :=
    updateBatch_eq_ok h
  rw [committedBlocks_updateBatch]
  refine ⟨commitBatch, ?_, fun v => write_updateBatch_of_not_isProgress⟩
  cases target with
  | none =>
    rw [hnone rfl]
    exact .inr ⟨htarget, rfl, rfl⟩
  | some target =>
    obtain ⟨committed, hcommit⟩ := hcommit target rfl
    obtain ⟨us, hus⟩ := commits_of_commit wf hcommit
    rw [← hus.walk.unique (walk_committedBlocks hcommit)]
    exact .inl ⟨target, htarget, hus⟩

/-- The block to commit becomes the highest committed block. -/
theorem highestCommittedBlock_update (wf : s.WellFormed) {justify : PhaseCertificate} {fuel : Nat}
    {updates : Option ValidatorSetUpdates} (h : s.updateBatch fuel justify = .ok (wb, updates))
    (htarget : s.blockToCommit justify = .ok (some target)) :
    s.write wb .highestCommittedBlock = some target := by
  obtain ⟨commitBatch, hcommits, hwrite⟩ := commitsFor_committedBlocks wf h
  have hlast := getLast?_committedBlocks h htarget
  rw [hwrite _ rfl (by simp)]
  rcases hcommits with ⟨target', htarget', hcommits⟩ | ⟨hnone, -, -⟩
  · obtain rfl := Option.some.inj (Except.ok.inj (htarget.symm.trans htarget'))
    refine hcommits.highestCommittedBlock_write fun hnil => ?_
    rw [List.reverse_eq_nil_iff.mp hnil] at hlast
    cases hlast
  · cases htarget.symm.trans hnone

/-! ## The walk of a commit above the highest committed block -/

section

variable (wf : s.WellFormed) (hcount : s.HeightsCount)
include wf hcount

/-- The walk from a block that extends the highest committed one leads down to that. -/
theorem Walk.reaches {minHeight : Option BlockHeight} {cursor : Option CryptoHash}
    (h : Walk s minHeight cursor us) (hmin : minHeight = s (.blockHeight highest))
    (hhighest : s.Stored highest) (hcursor : cursor = some target)
    (hext : Extends s.up target highest) :
    ∃ rest, us ++ [highest] = target :: rest ∧
      (us ++ [highest]).IsChain fun c p => s.up c = some p := by
  obtain ⟨min, hheight⟩ := wf.exists_height hhighest
  rw [hheight] at hmin
  induction h generalizing target with
  | root => cases hcursor
  | @stop b height min' hmin' hb hle =>
    obtain rfl := Option.some.inj hcursor
    obtain rfl := Option.some.inj (hmin.symm.trans hmin')
    have heq : b = highest := by
      by_contra hne
      exact absurd (hcount.lt_of_extends wf hext hne hb hheight) (not_lt.mpr hle)
    rw [heq]
    exact ⟨[], rfl, .singleton _⟩
  | @step b us habove rest ih =>
    obtain rfl := Option.some.inj hcursor
    rcases Extends.iff_parent.mp hext with rfl | ⟨p, hp, hpa⟩
    · obtain ⟨height, hb, hlt⟩ := habove min hmin
      rw [hheight, Option.some.injEq] at hb
      exact absurd hb.symm hlt.ne'
    · have hparent : s.parent b = some p := by
        refine wf.parent_of_up hp ?_
        rintro rfl
        rcases Extends.iff_parent.mp hpa with rfl | ⟨q, hq, -⟩
        · exact wf.genesis hhighest
        · exact wf.genesis (.of_up hq)
      obtain ⟨rest', hrest', hchain⟩ := ih hparent hpa
      refine ⟨us ++ [highest], rfl, ?_⟩
      rw [List.cons_append]
      refine List.isChain_cons.mpr ⟨fun y hy => ?_, hchain⟩
      rw [hrest'] at hy
      obtain rfl := Option.some.inj hy
      exact hp

/-- No two blocks of a commit have the same height. -/
theorem Commits.eq_of_height (h : Commits s target us wb) {b b' : CryptoHash} (hb : b ∈ us)
    (hb' : b' ∈ us) {height : BlockHeight} (hheight : s (.blockHeight b) = some height)
    (hheight' : s (.blockHeight b') = some height) : b = b' := by
  by_contra hne
  rcases (h.walk.extends_of_mem rfl hb).total (h.walk.extends_of_mem rfl hb') with hext | hext
  · exact lt_irrefl _ (hcount.lt_of_extends wf hext hne hheight hheight')
  · exact lt_irrefl _ (hcount.lt_of_extends wf hext (Ne.symm hne) hheight' hheight)

end

/-- What a commit writes at a height is the name of a block that has it. -/
theorem Commits.op_blockAtHeight (h : Commits s target us wb) {height : BlockHeight}
    {o : Op Var.Val} (ho : o ∈ wb) (hkey : o.key = .blockAtHeight height) :
    ∃ b ∈ us, s (.blockHeight b) = some height ∧ o = .set (.blockAtHeight height) b := by
  obtain ⟨b, hb, ho⟩ := (h.mem o).mp ho
  cases ho with
  | blockAtHeight hheight =>
    cases hkey
    exact ⟨b, hb, hheight, rfl⟩
  | prune _ ho =>
    have hblock := (delete_of_mem_deleteBranchBlock ho).2
    rw [hkey] at hblock
    cases hblock
  | children => cases hkey
  | appState _ ho =>
    obtain ⟨key, hk⟩ := set_of_mem_applyAppStateUpdates ho
    rw [hk] at hkey
    cases hkey
  | deletePending => cases hkey
  | validatorSet _ _ _ ho =>
    have hk := key_of_mem_validatorSetOps ho
    simp [hkey] at hk
  | highestCommittedBlock => cases hkey

theorem Commits.blockAtHeight_write (wf : s.WellFormed) (hcount : s.HeightsCount)
    (h : Commits s target us wb) {b : CryptoHash} (hb : b ∈ us) {height : BlockHeight}
    (hheight : s (.blockHeight b) = some height) : s.write wb (.blockAtHeight height) = some b := by
  have hmem : .set (.blockAtHeight height) b ∈ wb := (h.mem _).mpr ⟨b, hb, .blockAtHeight hheight⟩
  refine Store.write_of_unique s hmem fun o ho hkey => ?_
  obtain ⟨b', hb', hheight', rfl⟩ := h.op_blockAtHeight ho hkey
  rw [h.eq_of_height wf hcount hb hb' hheight hheight']

theorem Commits.blockAtHeight_kept (h : Commits s target us wb) {height : BlockHeight}
    (hnone : ∀ b ∈ us, s (.blockHeight b) ≠ some height) :
    s.write wb (.blockAtHeight height) = s (.blockAtHeight height) := by
  refine Store.write_of_notMem s fun o ho hkey => ?_
  obtain ⟨b, hb, hheight, -⟩ := h.op_blockAtHeight ho hkey.symm
  exact hnone b hb hheight

/-! ## The chain -/

/-- `cs` are the committed blocks, oldest first: each is the parent of the next one, the last
is the highest committed block, and each has its height to itself. -/
structure CommittedChain (s : BlockTree) (cs : List CryptoHash) : Prop where
  wf : s.WellFormed
  heights : s.HeightsCount
  highest : s .highestCommittedBlock = cs.getLast?
  stored : ∀ b ∈ cs, s.Stored b
  linked : cs.IsChain fun p c => s.up c = some p
  named : ∀ b ∈ cs, ∀ height, s (.blockHeight b) = some height →
    s (.blockAtHeight height) = some b

/-- The block to commit upon `justify`, if there is one, extends the highest committed block. -/
def CommitsAbove (s : BlockTree) (justify : PhaseCertificate) : Prop :=
  ∀ target highest, s.blockToCommit justify = .ok (some target) →
    s .highestCommittedBlock = some highest → Extends s.up target highest

namespace CommittedChain

theorem initial {appState : AppStateUpdates} {vss : ValidatorSetState} :
    CommittedChain (BlockTree.initial appState vss) [] where
  wf := wellFormed_initial
  heights := heightsCount_initial
  highest := initial_eq_none (by simp [initialOps]) (by simp) (by simp)
  stored := nofun
  linked := .nil
  named := nofun

variable (h : s.CommittedChain cs)
include h

theorem exists_highest {b : CryptoHash} (hb : b ∈ cs) :
    ∃ highest ∈ cs, s .highestCommittedBlock = some highest := by
  have hlast := List.getLast?_eq_some_getLast (List.ne_nil_of_mem hb)
  exact ⟨_, List.mem_of_getLast? hlast, h.highest.trans hlast⟩

/-- The highest committed block extends the others. -/
theorem extends_of_mem (hhighest : s .highestCommittedBlock = some highest) {b : CryptoHash}
    (hb : b ∈ cs) : Extends s.up highest b := by
  obtain ⟨cs₁, cs₂, rfl⟩ := List.append_of_mem hb
  have hlast : highest ∈ b :: cs₂ := by
    rw [h.highest, List.getLast?_append_cons] at hhighest
    exact List.mem_of_getLast? hhighest
  exact .of_isChain h.linked.right_of_append hlast

theorem congr {s' : BlockTree} (hblock : ∀ v x, v.block? = some x → s' v = s v)
    (hhighest : s' .highestCommittedBlock = s .highestCommittedBlock)
    (hnamed : ∀ height, s' (.blockAtHeight height) = s (.blockAtHeight height)) :
    CommittedChain s' cs := by
  have hup : ∀ b, s'.up b = s.up b := by
    intro b
    rw [up, up, hblock _ b rfl]
  refine ⟨h.wf.congr hblock, h.heights.congr hblock, hhighest.trans h.highest, fun b hb => ?_, ?_,
    fun b hb height hheight => ?_⟩
  · rw [Stored, hblock _ b rfl]
    exact h.stored b hb
  · exact h.linked.imp fun p c hc => (hup c).trans hc
  · rw [hnamed, h.named b hb height]
    rw [← hblock _ b rfl]
    exact hheight

/-- A new block changes nothing about the committed ones. -/
theorem insert {block : Block} {appStateUpdates : Option AppStateUpdates}
    {validatorSetUpdates : Option ValidatorSetUpdates} (hblock : s.InsertedAbove block)
    (hparent : block.justify = .genesisPc ∨ s.Stored block.justify.block) :
    (s.insert block appStateUpdates validatorSetUpdates).CommittedChain cs := by
  have hup : ∀ b p, s.up b = some p →
      (s.insert block appStateUpdates validatorSetUpdates).up b = some p := by
    intro b p hp
    rw [up_insert]
    split
    · rename_i hb
      obtain ⟨justify, hjustify, rfl⟩ := up_eq_some.mp hp
      rw [(hblock.fresh.same justify (hb ▸ hjustify)).1]
    · exact hp
  refine ⟨h.wf.insert hblock.fresh.hash hparent fun j hj => (hblock.fresh.same j hj).1,
    h.heights.insert h.wf hblock.fresh hparent hblock.height, ?_, fun b hb => ?_,
    h.linked.imp fun p c => hup c p, fun b hb height hheight => ?_⟩
  · rw [insert_of_block?_eq_none rfl (by simp)]
    exact h.highest
  · exact (stored_insert b).mpr (.inr (h.stored b hb))
  · obtain ⟨height', hheight'⟩ := h.wf.exists_height (h.stored b hb)
    rw [height_insert_of_fresh h.wf hblock.fresh hheight', Option.some.injEq] at hheight
    subst hheight
    rw [insert_of_block?_eq_none rfl (by simp)]
    exact h.named b hb height' hheight'

/-- The block to commit is above the highest committed block, and so is not below it. -/
theorem not_extends_target {justify : PhaseCertificate}
    (htarget : s.blockToCommit justify = .ok (some target))
    (hhighest : s .highestCommittedBlock = some highest) : ¬Extends s.up highest target := by
  intro hext
  obtain ⟨height, hheight, habove⟩ := height_of_blockToCommit htarget
  obtain ⟨height', hheight'⟩ :=
    h.wf.exists_height (h.stored highest (List.mem_of_getLast? (h.highest.symm.trans hhighest)))
  have hcommitted : s.committedHeight = some height' := by
    rw [committedHeight, hhighest]
    exact hheight'
  rw [hcommitted] at habove
  have hlt : height' < height := of_decide_eq_true habove
  by_cases hne : highest = target
  · subst hne
    exact hlt.ne (Option.some.inj (hheight'.symm.trans hheight))
  · exact lt_asymm hlt (h.heights.lt_of_extends h.wf hext hne hheight' hheight)

/-- The walk of a commit goes on where the chain ends. -/
theorem linked_append (hcommits : Commits s target us wb)
    (habove : ∀ highest, s .highestCommittedBlock = some highest → Extends s.up target highest) :
    (cs ++ us.reverse).IsChain fun p c => s.up c = some p := by
  refine List.isChain_append.mpr
    ⟨h.linked, List.isChain_reverse.mpr hcommits.walk.isChain, fun x hx y hy => ?_⟩
  have hhighest : s .highestCommittedBlock = some x := h.highest.trans hx
  have hmin : s.committedHeight = s (.blockHeight x) := by
    rw [committedHeight, hhighest]
    rfl
  obtain ⟨-, -, hchain⟩ := hcommits.walk.reaches h.wf h.heights hmin
    (h.stored x (List.mem_of_getLast? hx)) rfl (habove x hhighest)
  rw [List.head?_reverse] at hy
  exact (List.isChain_append.mp hchain).2.2 y hy x rfl

/-- The committed blocks so far are below those that a commit adds. -/
theorem blockHeight_ne (hcommits : Commits s target us wb) {b x : CryptoHash} (hb : b ∈ cs)
    (hx : x ∈ us) {height : BlockHeight} (hheight : s (.blockHeight b) = some height) :
    s (.blockHeight x) ≠ some height := by
  intro hheight'
  obtain ⟨highest, hmem, hhighest⟩ := h.exists_highest hb
  obtain ⟨min, hmin⟩ := h.wf.exists_height (h.stored highest hmem)
  have hcommitted : s.committedHeight = some min := by
    rw [committedHeight, hhighest]
    exact hmin
  obtain ⟨above, habove, hlt⟩ := hcommits.walk.above_of_mem hx hcommitted
  obtain rfl := Option.some.inj (hheight'.symm.trans habove)
  by_cases hne : highest = b
  · subst hne
    obtain rfl := Option.some.inj (hmin.symm.trans hheight)
    exact lt_irrefl _ hlt
  · exact lt_asymm hlt
      (h.heights.lt_of_extends h.wf (h.extends_of_mem hhighest hb) hne hmin hheight)

/-- A commit prunes neither the committed blocks nor those that it commits. -/
theorem not_prunes (hcommits : Commits s target us wb)
    (habove : ∀ highest, s .highestCommittedBlock = some highest → Extends s.up target highest)
    {b : CryptoHash} (hb : b ∈ cs ++ us.reverse) : ¬Commits.Prunes s us b := by
  apply hcommits.not_prunes h.wf
  rcases List.mem_append.mp hb with hb | hb
  · obtain ⟨highest, -, hhighest⟩ := h.exists_highest hb
    exact (habove highest hhighest).trans (h.extends_of_mem hhighest hb)
  · exact hcommits.walk.extends_of_mem rfl (List.mem_reverse.mp hb)

theorem commit (hcommits : Commits s target us wb) (htarget : s.Stored target)
    (habove : ∀ highest, s .highestCommittedBlock = some highest → Extends s.up target highest) :
    CommittedChain (s.write wb) (cs ++ us.reverse) := by
  have hkept : ∀ b ∈ cs ++ us.reverse, ¬Commits.Prunes s us b :=
    fun b => h.not_prunes hcommits habove
  have hstored : ∀ b ∈ cs ++ us.reverse, s.Stored b := by
    intro b hb
    rcases List.mem_append.mp hb with hb | hb
    · exact h.stored b hb
    · refine hcommits.walk.stored_of_mem h.wf (fun x hx => ?_) (List.mem_reverse.mp hb)
      obtain rfl := Option.some.inj hx
      exact htarget
  have hfield : ∀ {v : Var} {b : CryptoHash}, v.isField = true → v.block? = some b →
      b ∈ cs ++ us.reverse → s.write wb v = s v :=
    fun hv hb hmem => hcommits.field_write hv hb (hkept _ hmem)
  refine ⟨hcommits.wellFormed h.wf, h.heights.commit h.wf hcommits, ?_, fun b hb =>
    (hcommits.stored_write h.wf).mpr ⟨hstored b hb, hkept b hb⟩, ?_, fun b hb height hheight => ?_⟩
  · cases us with
    | nil =>
      rw [hcommits.eq_nil, List.reverse_nil, List.append_nil]
      exact h.highest
    | cons u us =>
      obtain ⟨rest, hrest⟩ := hcommits.walk.eq_cons (List.cons_ne_nil u us)
      obtain ⟨rfl, -⟩ := List.cons.inj hrest
      rw [hcommits.highestCommittedBlock_write (List.cons_ne_nil u us), List.reverse_cons,
        ← List.append_assoc, List.getLast?_concat]
  · refine (h.linked_append hcommits habove).imp_of_mem_imp fun p c hp hc hup => ?_
    exact (hcommits.up_write h.wf).mpr ⟨hup, hkept c hc⟩
  · rw [hfield rfl rfl hb] at hheight
    rcases List.mem_append.mp hb with hb | hb
    · rw [hcommits.blockAtHeight_kept fun x hx => h.blockHeight_ne hcommits hb hx hheight]
      exact h.named b hb height hheight
    · exact hcommits.blockAtHeight_write h.wf h.heights (List.mem_reverse.mp hb) hheight

/-- Acting upon a certificate makes the chain longer by what it commits, and leaves the blocks
of the chain as they are. -/
theorem update {justify : PhaseCertificate} {fuel : Nat} {updates : Option ValidatorSetUpdates}
    (habove : s.CommitsAbove justify) (hupdate : s.updateBatch fuel justify = .ok (wb, updates)) :
    CommittedChain (s.write wb) (cs ++ wb.committedBlocks) ∧
      ∀ v b, v.isField = true → v.block? = some b → b ∈ cs → s.write wb v = s v := by
  obtain ⟨commitBatch, hcommits, hwrite⟩ := commitsFor_committedBlocks h.wf hupdate
  have hwrite' : ∀ v b, v.block? = some b → s.write wb v = s.write commitBatch v := by
    intro v b hv
    refine hwrite v (Var.isProgress_of_block? hv) ?_
    rintro rfl
    cases hv
  have hchain : CommittedChain (s.write commitBatch) (cs ++ wb.committedBlocks) ∧
      ∀ v b, v.isField = true → v.block? = some b → b ∈ cs → s.write commitBatch v = s v := by
    rcases hcommits with ⟨target, htarget, hcommits⟩ | ⟨-, hnil, rfl⟩
    · have habove' := fun highest => habove target highest htarget
      have hcommit := h.commit hcommits (stored_of_blockToCommit h.wf htarget) habove'
      rw [List.reverse_reverse] at hcommit
      exact ⟨hcommit, fun v b hv hvb hb =>
        hcommits.field_write hv hvb (h.not_prunes hcommits habove' (List.mem_append_left _ hb))⟩
    · rw [List.reverse_eq_nil_iff.mp hnil, List.append_nil]
      exact ⟨h, fun _ _ _ _ _ => rfl⟩
  exact ⟨hchain.1.congr hwrite' (hwrite _ rfl (by simp)) fun height => hwrite _ rfl (by simp),
    fun v b hv hvb hb => (hwrite' v b hvb).trans (hchain.2 v b hv hvb hb)⟩

/-- If the chain goes on with what an update commits, the block to commit extends its end. -/
theorem commitsAbove {justify : PhaseCertificate} {fuel : Nat}
    {updates : Option ValidatorSetUpdates} (hupdate : s.updateBatch fuel justify = .ok (wb, updates))
    (hlinked : (cs ++ wb.committedBlocks).IsChain fun p c => up (s.write wb) c = some p) :
    s.CommitsAbove justify := by
  intro target highest htarget hhighest
  obtain ⟨commitBatch, hcommits, hwrite⟩ := commitsFor_committedBlocks h.wf hupdate
  have hlast := getLast?_committedBlocks hupdate htarget
  rcases hcommits with ⟨target', htarget', hcommits⟩ | ⟨hnone, -, -⟩
  · obtain rfl : target' = target := by
      rw [htarget, Except.ok.injEq, Option.some.injEq] at htarget'
      exact htarget'.symm
    obtain ⟨first, rest, hblocks⟩ : ∃ first rest, wb.committedBlocks = first :: rest :=
      List.exists_cons_of_ne_nil fun hnil => by simp [hnil] at hlast
    have hmem : first ∈ wb.committedBlocks.reverse := by simp [hblocks]
    -- The parent of the first block is the end of the chain, after the update and before it.
    have hup : up (s.write wb) first = some highest := by
      refine (List.isChain_append.mp hlinked).2.2 highest (h.highest.symm.trans hhighest) first ?_
      rw [hblocks]
      rfl
    have hup' : up (s.write commitBatch) first = some highest := by
      rw [up, hwrite _ rfl (by simp)] at hup
      exact hup
    exact (hcommits.walk.extends_of_mem rfl hmem).trans
      (.parent ((hcommits.up_write h.wf).mp hup').1)
  · rw [hnone] at htarget
    cases htarget

end CommittedChain

end BlockTree
end HotStuffRs
