import HotStuffRs.BlockTree.CommitEach
import HotStuffRs.BlockTree.CommittedChain

/-
What a commit leaves of the tree.

Every block above the highest committed one that is not in line with the target leaves the
way to the target at some block of the walk, and hangs below a sibling of that.
-/

namespace HotStuffRs
namespace BlockTree

open Forest Kv
open Result (Eventually)

variable {s : BlockTree} {t : CryptoHash}

/-- The highest committed block and what it extends is committed. -/
def Committed (s : BlockTree) (b : CryptoHash) : Prop :=
  ∃ highest, s .highestCommittedBlock = some highest ∧ Extends s.up highest b

/-- Children lists mirror justify links, heights count these links, and all blocks that are not
committed descend from the highest committed block. -/
structure Branching (s : BlockTree) : Prop where
  height : ∀ b, (s (.blockHeight b)).isSome = true ↔ s.Stored b
  dataHash : ∀ b, (s (.blockDataHash b)).isSome = true ↔ s.Stored b
  dataLen : ∀ b, (s (.blockDataLen b)).isSome = true ↔ s.Stored b
  datum : ∀ b len, s (.blockDataLen b) = some len → ∀ i < len.val,
    (s (.blockDatum b (Fin.ofNat _ i))).isSome = true
  genesis : ¬s.Stored 0
  parent : ∀ b j, s (.blockJustify b) = some j → j = .genesisPc ∨ s.Stored j.block
  mem_children : ∀ p c, c ∈ s.childrenOf p ↔ s.up c = some p
  count : s.HeightsCount
  descends : ∀ highest, s .highestCommittedBlock = some highest → ∀ b, s.Stored b →
    ¬s.Committed b → Extends s.up b highest

/-- `v` is a key of the block `x`.  A datum is one of the block if it is below its data length. -/
def IsKeyOf (s : BlockTree) (x : CryptoHash) (v : Var) : Prop :=
  v.block? = some x ∧ ∀ i len, v = .blockDatum x i → s (.blockDataLen x) = some len →
    i.val < len.val

namespace Branching

/-- One more than the height of a stored block. -/
def rank (s : BlockTree) (b : CryptoHash) : Nat :=
  match s (.blockHeight b) with
  | some height => height.val + 1
  | none => 0

theorem rank_lt (h : s.Branching) {b p : CryptoHash} (hup : s.up b = some p) :
    rank s p < rank s b := by
  obtain ⟨j, hj, rfl⟩ := up_eq_some.mp hup
  obtain ⟨height, hheight⟩ := Option.isSome_iff_exists.mp ((h.height b).mpr (.of_up hup))
  have hchild := h.count b j height hj hheight
  unfold rank
  rw [hheight]
  cases hp : s (.blockHeight j.block) with
  | none =>
    show 0 < height.val + 1
    omega
  | some parentHeight =>
    have hne : j.isGenesisPc ≠ true := by
      intro hgenesis
      obtain rfl := PhaseCertificate.isGenesisPc_iff.mp hgenesis
      have hsome : (s (.blockHeight PhaseCertificate.genesisPc.block)).isSome = true := by
        rw [hp]
        rfl
      exact h.genesis ((h.height _).mp hsome)
    rw [childHeight, if_neg hne, hp, Option.map_some, Option.some.injEq] at hchild
    show parentHeight.val + 1 < height.val + 1
    omega

theorem wellFormed (h : s.Branching) : s.WellFormed where
  height := h.height
  dataHash := h.dataHash
  dataLen := h.dataLen
  datum := h.datum
  genesis := h.genesis
  parent := h.parent
  acyclic := by
    have hsub : Subrelation (fun p c => s.up c = some p) (InvImage (· < ·) (rank s)) :=
      fun hup => h.rank_lt hup
    exact hsub.wf (InvImage.wf _ Nat.lt_wfRel.wf)
  mem_children := h.mem_children

end Branching

theorem WellFormed.branching (wf : s.WellFormed) (hcount : s.HeightsCount)
    (hnone : s .highestCommittedBlock = none) : s.Branching where
  height := wf.height
  dataHash := wf.dataHash
  dataLen := wf.dataLen
  datum := wf.datum
  genesis := wf.genesis
  parent := wf.parent
  mem_children := wf.mem_children
  count := hcount
  descends b hb := by
    rw [hnone] at hb
    cases hb

/-- A commit of a stored block succeeds. -/
theorem exists_eventually_commit (wf : s.WellFormed)
    (hvs : (s .committedValidatorSet).isSome = true) (ht : s.Stored t) :
    ∃ result, Eventually (fun fuel => commit s fuel t) result := by
  obtain ⟨us, walk⟩ := exists_walk wf s.committedHeight ht
  have hstored : ∀ b ∈ us, s.Stored b := by
    intro b hb
    refine walk.stored_of_mem wf ?_ hb
    rintro _ ⟨⟩
    exact ht
  obtain ⟨rounds, hrounds⟩ : ∃ rounds, Eventually
      (fun fuel => us.reverse.mapM (commitBlock s fuel t)) rounds :=
    Eventually.mapM fun b hb => eventually_commitBlock wf hvs (hstored b (List.mem_reverse.mp hb)) t
  exact ⟨_, eventually_commit walk hrounds⟩

/-! ## The walk takes in all that is above -/

theorem Walk.mem_of_extends (wf : s.WellFormed) (hcount : s.HeightsCount)
    {minHeight : Option BlockHeight} {cursor : Option CryptoHash} {us : List CryptoHash}
    (h : Walk s minHeight cursor us) (hcursor : cursor = some t) {b : CryptoHash}
    (hb : s.Stored b) (hext : Extends s.up t b)
    (habove : ∀ min ∈ minHeight, ∃ height, s (.blockHeight b) = some height ∧ min < height) :
    b ∈ us := by
  induction h generalizing t with
  | root => cases hcursor
  | @stop x height min hmin hx hle =>
    obtain rfl := Option.some.inj hcursor
    obtain ⟨height', hheight', hlt⟩ := habove min hmin
    by_cases heq : x = b
    · subst heq
      rw [hx, Option.some.injEq] at hheight'
      exact absurd (hheight' ▸ hle) (not_le.mpr hlt)
    · have hbelow : height' < height := hcount.lt_of_extends wf hext heq hx hheight'
      exact absurd hle (not_le.mpr (hlt.trans hbelow))
  | @step x us _ rest ih =>
    obtain rfl := Option.some.inj hcursor
    rcases Extends.iff_parent.mp hext with rfl | ⟨p, hp, hpb⟩
    · exact List.mem_cons_self
    · have hne : p ≠ 0 := by
        rintro rfl
        by_cases heq : b = 0
        · exact wf.genesis (heq ▸ hb)
        · exact wf.genesis (.of_extends hpb (Ne.symm heq))
      exact List.mem_cons_of_mem _ (ih (wf.parent_of_up hp hne) hpb)

/-- Every block descends from the genesis placeholder. -/
theorem WellFormed.extends_genesis (wf : s.WellFormed) {b : CryptoHash} (hb : s.Stored b) :
    Extends s.up b 0 := by
  induction b using wf.acyclic.induction with
  | _ b ih =>
    obtain ⟨p, hp⟩ := stored_iff_up.mp hb
    by_cases hzero : p = 0
    · exact .parent (hzero ▸ hp)
    · exact .of_parent hp (ih p hp (wf.stored_of_parent (wf.parent_of_up hp hzero)))

namespace Branching

variable (h : s.Branching) (ht : s.Stored t) (hopen : ¬s.Committed t)
include h ht hopen

/-- Two blocks that are not in line, of which one is not committed, part above the highest
committed block. -/
theorem exists_fork {x : CryptoHash} (hx : s.Stored x) (htx : ¬Extends s.up t x)
    (hxt : ¬Extends s.up x t) : ∃ p b sibling, s.up b = some p ∧ s.up sibling = some p ∧
      b ≠ sibling ∧ Extends s.up t b ∧ Extends s.up x sibling ∧
      ∀ min ∈ s.committedHeight, ∃ height, s (.blockHeight b) = some height ∧ min < height := by
  have wf := h.wellFormed
  cases hhighest : s .highestCommittedBlock with
  | none =>
    obtain ⟨p, b, sibling, hb, hsibling, hne, htb, hxs, -⟩ :=
      (wf.extends_genesis ht).exists_fork (wf.extends_genesis hx) htx hxt
    refine ⟨p, b, sibling, hb, hsibling, hne, htb, hxs, fun min hmin => ?_⟩
    rw [committedHeight, hhighest] at hmin
    cases hmin
  | some highest =>
    have htop : Extends s.up t highest := h.descends highest hhighest t ht hopen
    have hxtop : Extends s.up x highest := by
      refine h.descends highest hhighest x hx ?_
      rintro ⟨highest', hhighest', hext⟩
      obtain rfl := Option.some.inj (hhighest.symm.trans hhighest')
      exact htx (htop.trans hext)
    obtain ⟨p, b, sibling, hb, hsibling, hne, htb, hxs, hp⟩ := htop.exists_fork hxtop htx hxt
    refine ⟨p, b, sibling, hb, hsibling, hne, htb, hxs, fun min hmin => ?_⟩
    rw [committedHeight, hhighest, Option.bind_some] at hmin
    obtain ⟨height, hheight⟩ := wf.exists_height (.of_up hb)
    have hbne : b ≠ highest := by
      rintro rfl
      exact wf.acyclic.not_extends_parent hb hp
    exact ⟨height, hheight, h.count.lt_of_extends wf (.of_parent hb hp) hbne hheight hmin⟩

variable {us : List CryptoHash} {wb : WriteBatch} (hcommits : Commits s t us wb)
include hcommits

theorem not_prunes_iff {x : CryptoHash} (hx : s.Stored x) :
    ¬Commits.Prunes s us x ↔ Extends s.up t x ∨ Extends s.up x t := by
  have wf := h.wellFormed
  constructor
  · intro hnot
    by_contra hline
    obtain ⟨htx, hxt⟩ := not_or.mp hline
    obtain ⟨p, b, sibling, hb, hsibling, hne, htb, hxs, habove⟩ := h.exists_fork ht hopen hx htx hxt
    have hmem : b ∈ us := hcommits.walk.mem_of_extends wf h.count rfl (.of_up hb) htb habove
    exact hnot ⟨b, hmem, p, sibling, hb, hsibling, hne.symm, hxs⟩
  · rintro (htx | hxt)
    · exact hcommits.not_prunes wf htx
    · rintro ⟨b, hb, hpruned⟩
      exact not_pruned_of_extends wf (hxt.trans (hcommits.walk.extends_of_mem rfl hb)) (.refl x)
        hpruned

theorem walk_ne_nil : us ≠ [] := by
  have wf := h.wellFormed
  have hmem : t ∈ us := by
    refine hcommits.walk.mem_of_extends wf h.count rfl ht (.refl t) fun min hmin => ?_
    obtain ⟨highest, hhighest, hheight⟩ := Option.bind_eq_some_iff.mp hmin
    obtain ⟨height, ht'⟩ := wf.exists_height ht
    have hne : t ≠ highest := by
      rintro rfl
      exact hopen ⟨t, hhighest, .refl t⟩
    exact ⟨height, ht', h.count.lt_of_extends wf (h.descends highest hhighest t ht hopen) hne ht'
      hheight⟩
  exact List.ne_nil_of_mem hmem

end Branching

/-- A commit leaves the committed chain up to its target and what descends from it, as they
were, and no key of any other block. -/
theorem commit_prunes_conflicting (h : s.Branching) (ht : s.Stored t) (hopen : ¬s.Committed t) :
    ((s .committedValidatorSet).isSome = true →
      ∃ result, Eventually (fun fuel => commit s fuel t) result) ∧
    ∀ fuel wb committed, commit s fuel t = .ok (wb, committed) →
      s.write wb .highestCommittedBlock = some t ∧
      (∀ x, Stored (s.write wb) x ↔ s.Stored x ∧ (Extends s.up t x ∨ Extends s.up x t)) ∧
      (∀ x v, s.Stored x → ¬Stored (s.write wb) x → s.IsKeyOf x v ∨ v.block? = some x ∧ s v = none →
        s.write wb v = none) ∧
      ∀ x v, Stored (s.write wb) x → v.block? = some x → v.isField = true → s.write wb v = s v := by
  have wf := h.wellFormed
  refine ⟨fun hvs => exists_eventually_commit wf hvs ht, fun fuel wb committed hcommit => ?_⟩
  obtain ⟨us, hcommits⟩ := commits_of_commit wf hcommit
  have hstored := fun x => hcommits.stored_write wf (x := x)
  refine ⟨hcommits.highestCommittedBlock_write (h.walk_ne_nil ht hopen hcommits), fun x => ?_,
    fun x v hx hgone hv => ?_, fun x v hx hv hfield => ?_⟩
  · rw [hstored]
    exact and_congr_right (h.not_prunes_iff ht hopen hcommits)
  · have hpruned : Commits.Prunes s us x := by
      by_contra hnot
      exact hgone ((hstored x).mpr ⟨hx, hnot⟩)
    have hblock : v.block? = some x := hv.elim (·.1) (·.1)
    cases hdatum : v.isDatum with
    | false => exact hcommits.pruned_gone wf hpruned hblock hdatum
    | true =>
      rcases hv with ⟨-, hkey⟩ | ⟨-, hnone⟩
      · obtain ⟨len, hlen⟩ := wf.exists_dataLen hx
        cases v with
        | blockDatum y i =>
          obtain rfl := Option.some.inj hblock
          exact hcommits.pruned_datum_gone wf hpruned hlen (hkey i len rfl hlen)
        | _ => cases hdatum
      · have hfield : v.isField = true := by
          cases v <;> first | rfl | cases hdatum
        rcases field_write_commit hcommit hfield with heq | heq
        · rw [heq, hnone]
        · exact heq
  · exact hcommits.field_write hfield hv ((hstored x).mp hx).2

/-! Two blocks on genesis, and one on each of them. -/

/-- A new block at the height that `propose` would give to it. -/
theorem insert_new {block : Block} (h : s.WellFormed ∧ s.HeightsCount) (hhash : block.hash ≠ 0)
    (hnew : (s (.blockJustify block.hash)).isSome = false)
    (hparent : block.justify = .genesisPc ∨ s.Stored block.justify.block)
    (hheight : s.childHeight block.justify = some block.height.val) :
    (s.insert block none none).WellFormed ∧ (s.insert block none none).HeightsCount := by
  have hfresh : s.Fresh block := by
    refine ⟨hhash, fun j hj => ?_⟩
    rw [hj] at hnew
    cases hnew
  exact ⟨h.1.insert hhash hparent fun j hj => (hfresh.same j hj).1,
    h.2.insert h.1 hfresh hparent hheight⟩

def forkedAt (n : Nat) : BlockTree :=
  ([⟨0, 1, .genesisPc, 0, []⟩, ⟨0, 2, .genesisPc, 0, [[5], [6]]⟩,
    ⟨1, 3, ⟨7, 1, 2, .generic, []⟩, 0, [[7]]⟩,
    ⟨1, 4, ⟨7, 2, 1, .generic, []⟩, 0, []⟩] : List Block).take n |>.foldl
      (fun s block => s.insert block none none)
      (initial UpdateSet.new ⟨ValidatorSet.new.put 1 1, ValidatorSet.new.put 1 1, none, true⟩)

theorem branching_forkedAt : (forkedAt 4).Branching := by
  have h : (forkedAt 0).WellFormed ∧ (forkedAt 0).HeightsCount :=
    ⟨wellFormed_initial, heightsCount_initial⟩
  have h₁ : (forkedAt 1).WellFormed ∧ (forkedAt 1).HeightsCount :=
    insert_new h (by decide) (by decide +kernel) (.inl rfl) (by decide +kernel)
  have h₂ : (forkedAt 2).WellFormed ∧ (forkedAt 2).HeightsCount :=
    insert_new h₁ (by decide) (by decide +kernel) (.inl rfl) (by decide +kernel)
  have h₃ : (forkedAt 3).WellFormed ∧ (forkedAt 3).HeightsCount := by
    refine insert_new h₂ (by decide) (by decide +kernel) (.inr ?_) (by decide +kernel)
    show ((forkedAt 2) (.blockJustify 2)).isSome = true
    decide +kernel
  have h₄ : (forkedAt 4).WellFormed ∧ (forkedAt 4).HeightsCount := by
    refine insert_new h₃ (by decide) (by decide +kernel) (.inr ?_) (by decide +kernel)
    show ((forkedAt 3) (.blockJustify 1)).isSome = true
    decide +kernel
  exact h₄.1.branching h₄.2 (by decide +kernel)

theorem commit_prunes_conflicting_forked : ∃ wb committed,
    commit (forkedAt 4) 10 1 = .ok (wb, committed) ∧
    (∀ x, Stored ((forkedAt 4).write wb) x ↔ (forkedAt 4).Stored x ∧
      (Extends (forkedAt 4).up 1 x ∨ Extends (forkedAt 4).up x 1)) ∧
    ¬Stored ((forkedAt 4).write wb) 2 ∧ (forkedAt 4).write wb (.blockDatum 2 1) = none := by
  have hstored : (forkedAt 4).Stored 1 := by
    show ((forkedAt 4) (.blockJustify 1)).isSome = true
    decide +kernel
  have hgone : (Result.ok? (commit (forkedAt 4) 10 1)).map
      (fun result => ((forkedAt 4).write result.1 (.blockJustify 2)).isSome) = some false := by
    decide +kernel
  obtain ⟨⟨wb, committed⟩, hok, hnone⟩ := Option.map_eq_some_iff.mp hgone
  have hcommit : commit (forkedAt 4) 10 1 = .ok (wb, committed) := Result.ok?_eq_some.mp hok
  have hgone' : ¬Stored ((forkedAt 4).write wb) 2 := by
    intro hsome
    rw [Stored, hnone] at hsome
    cases hsome
  have hopen : ¬(forkedAt 4).Committed 1 := by
    rintro ⟨highest, hhighest, -⟩
    have hnone : (forkedAt 4) .highestCommittedBlock = none := by decide +kernel
    rw [hnone] at hhighest
    cases hhighest
  obtain ⟨-, hruns⟩ := commit_prunes_conflicting branching_forkedAt hstored hopen
  obtain ⟨-, hremain, hremoved, -⟩ := hruns 10 wb committed hcommit
  refine ⟨wb, committed, hcommit, hremain, hgone', hremoved 2 (.blockDatum 2 1) ?_ hgone' (.inl ?_)⟩
  · show ((forkedAt 4) (.blockJustify 2)).isSome = true
    decide +kernel
  · refine ⟨rfl, fun i len hi hlen => ?_⟩
    obtain rfl : 1 = i := (Var.blockDatum.inj hi).2
    have hlen' : (forkedAt 4) (.blockDataLen 2) = some 2 := by decide +kernel
    obtain rfl := Option.some.inj (hlen'.symm.trans hlen)
    decide

end BlockTree
end HotStuffRs
