import HotStuffRs.BlockTree.Heights
import HotStuffRs.BlockTree.Safe
import HotStuffRs.Replica.Under

/-
Heights.

Proposers give a block the height after that of its parent, and nobody checks that they do.
-/

namespace HotStuffRs

open Kv Kv.Process

/-! ## What proposers do -/

/-- `e` proposes a block of the height that follows from its justify. -/
def ProposesAbove (s : BlockTree) (e : Replica.Effect) : Prop :=
  ∃ proposal : Proposal, e = .act (.broadcast (.progress (.hotStuff (.proposal proposal)))) ∧
    s.childHeight proposal.block.justify = some proposal.block.height.val

theorem Block.of_new {cr : Crypto} {height : BlockHeight} {justify : PhaseCertificate}
    {dataHash : CryptoHash} {data : Data} {block : Block}
    (h : Block.new cr height justify dataHash data = .ok block) :
    block.height = height ∧ block.justify = justify := by
  simp only [Block.new] at h
  split at h
  · cases h
  · obtain ⟨hash, -, h⟩ := Result.bind_eq_ok.mp h
    obtain rfl := Except.ok.inj h
    exact ⟨rfl, rfl⟩

/-- A leader proposes a new block of the height that the insertion asks for. -/
theorem wp_proposeNew {cr : Crypto} {app : App} {fuel : Nat} {highestPc : PhaseCertificate}
    {w : World HotStuff Action Var.Val} :
    wp (HotStuff.proposeNew cr app fuel highestPc)
      (fun _ w' => ∃ e, w'.effects = w.effects ++ [e] ∧ ProposesAbove w.tree e)
      (fun w' => w'.effects = w.effects) w := by
  have htail : ∀ (parent : Option CryptoHash) (childHeight : BlockHeight),
      BlockTree.childHeight w.tree highestPc = some childHeight.val → wp (do
        let view ← lift (BlockTree.appView w.tree fuel parent)
        let made := app.produceBlock w.mem.viewInfo.view parent view
        let block ← lift (Block.new cr childHeight highestPc made.1 made.2)
        HotStuff.broadcast
          (.proposal { chainId := w.mem.config.chainId, view := w.mem.viewInfo.view, block }))
      (fun _ w' => ∃ e, w'.effects = w.effects ++ [e] ∧ ProposesAbove w.tree e)
      (fun w' => w'.effects = w.effects) w := by
    intro parent childHeight hheight
    rw [wp_bind, wp_lift]
    refine ⟨fun view _ => ?_, fun _ _ => rfl⟩
    dsimp only
    rw [wp_bind, wp_lift]
    refine ⟨fun block hblock => ?_, fun _ _ => rfl⟩
    obtain ⟨rfl, rfl⟩ := Block.of_new hblock
    exact ⟨_, rfl, _, rfl, hheight⟩
  unfold HotStuff.proposeNew
  rw [wp_bind, wp_mem, wp_bind, wp_store]
  split
  · rename_i hgenesis
    rw [wp_bind, wp_pure]
    exact htail none 0 (by rw [BlockTree.childHeight, if_pos hgenesis]; rfl)
  · rename_i hgenesis
    rw [wp_bind, wp_lift]
    refine ⟨fun parentHeight hparent => ?_, fun _ _ => rfl⟩
    rw [kv_blockHeight, Except.ok.injEq] at hparent
    cases parentHeight with
    | none => exact rfl
    | some parentHeight =>
      rw [wp_bind, wp_lift]
      refine ⟨fun childHeight hchild => ?_, fun _ _ => rfl⟩
      refine htail (some highestPc.block) childHeight ?_
      rw [BlockTree.childHeight, if_neg hgenesis, hparent, Option.map_some, ← U64.add_eq_ok.mp hchild]
      rfl

namespace Sample

/-- A block below genesis that claims to be high up. -/
def highBlock : Block := blockOn 5 .genesisPc 101

def proposeHigh : List Input := [advance (.timeoutCertificate timeout), propose 1 highBlock]

end Sample

namespace Protocol

open BlockTree

variable {cr : Crypto} {config : Configuration} {apps : App → Prop}

/-- In every history that only inserts blocks of the proper height, the height of a block is
0 below genesis, and one more than that of its parent otherwise. -/
theorem heights_count {appState : AppStateUpdates} {vss : ValidatorSetState} {log : List Event}
    (h : History cr config apps (initial appState vss) log)
    (hinserted : Inserted (initial appState vss) (fun s block _ => s.InsertedAbove block) log) :
    let s := (initial appState vss).replay log
    ∀ b height justify, s.kv.blockHeight b = .ok (some height) →
      s.kv.blockJustify b = .ok justify →
      if justify = .genesisPc then height = 0
      else ∃ parentHeight, s.kv.blockHeight justify.block = .ok (some parentHeight) ∧
        height.val = parentHeight.val + 1 := by
  have hcount : ((initial appState vss).replay log).WellFormed ∧
      ((initial appState vss).replay log).HeightsCount := by
    refine history_invariant (I := fun s => s.WellFormed ∧ s.HeightsCount) h hinserted
      ⟨wellFormed_initial, heightsCount_initial⟩ ?_ ?_ ?_
    · intro s block appStateUpdates validatorSetUpdates app hs _ hsafe _ _ hblock
      have hparent := hs.1.parent_of_safeBlock hsafe
      exact ⟨hs.1.insert hblock.fresh.hash hparent fun j hj => (hblock.fresh.same j hj).1,
        hs.2.insert hs.1 hblock.fresh hparent hblock.height⟩
    · intro s justify fuel wb updates hs hupdate
      exact ⟨hs.1.update hupdate, hs.2.update hs.1 hupdate⟩
    · intro s v x hs hv
      exact ⟨hs.1.congr fun _ _ => block_note hv, hs.2.congr fun _ _ => block_note hv⟩
  intro s b height justify hheight hjustify
  rw [kv_blockHeight, Except.ok.injEq] at hheight
  have hchild := hcount.2 b justify height (kv_blockJustify_eq_ok.mp hjustify) hheight
  unfold childHeight at hchild
  by_cases hgenesis : justify = .genesisPc
  · rw [if_pos (PhaseCertificate.isGenesisPc_iff.mpr hgenesis), Option.some.injEq] at hchild
    rw [if_pos hgenesis]
    exact Fin.ext hchild.symm
  · rw [if_neg (mt PhaseCertificate.isGenesisPc_iff.mp hgenesis), Option.map_eq_some_iff] at hchild
    obtain ⟨parentHeight, hparentHeight, hheight'⟩ := hchild
    rw [if_neg hgenesis]
    exact ⟨parentHeight, (kv_blockHeight _).trans (congrArg _ hparentHeight), hheight'.symm⟩

/-! ## Three blocks of the proper heights, and one of another -/

/-- Whether a batch that inserts a block inserts a new one of the proper height. -/
def insertsAbove (s : BlockTree) : WriteBatch → Bool
  | .set (.blockHeight b) height :: .set (.blockJustify _) justify :: _ =>
    b != 0 && s (.blockJustify b) == none && s.childHeight justify == some height.val
  | _ => true

theorem inserted_of_checkLog {s₀ : BlockTree} {log : List Event}
    (h : checkLog insertsAbove s₀ log = true) :
    Inserted s₀ (fun s block _ => s.InsertedAbove block) log := by
  intro before block appStateUpdates validatorSetUpdates hlog
  have hinserted := check_of_checkLog h hlog
  generalize s₀.replay before = s at hinserted ⊢
  have hchecked : (block.hash != 0 && s (.blockJustify block.hash) == none &&
      s.childHeight block.justify == some block.height.val) = true := hinserted
  simp only [Bool.and_eq_true, bne_iff_ne, ne_eq, beq_iff_eq] at hchecked
  obtain ⟨⟨hhash, hnone⟩, hheight⟩ := hchecked
  refine ⟨⟨hhash, fun j hj => ?_⟩, hheight⟩
  rw [hnone] at hj
  cases hj

set_option maxRecDepth 100000 in
theorem checks_firstThreeViews : Replica.checks Sample.crypto (Sample.configuration 3) Sample.tree
    20 (fun _ _ => true) Sample.firstThreeViews (fun log r => checkLog insertsAbove Sample.tree log &&
      r.tree (.blockJustify Sample.block₂.hash) == some Sample.block₂.justify &&
      r.tree (.blockHeight Sample.block₂.hash) == some 2) = true := by
  decide +kernel

theorem heights_count_three : ∃ log,
    History Sample.crypto (Sample.configuration 3) (· = Sample.app) Sample.tree log ∧
    ∃ parentHeight, (Store.kv (Sample.tree.replay log)).blockHeight Sample.block₂.justify.block =
      .ok (some parentHeight) ∧ 2 = parentHeight.val + 1 := by
  obtain ⟨log, r, history, htree, hlog⟩ :=
    exists_history_of_checks Sample.app_firstThreeViews checks_firstThreeViews
  simp only [Bool.and_eq_true, beq_iff_eq] at hlog
  obtain ⟨⟨hinserted, hjustify⟩, hheight⟩ := hlog
  rw [htree] at hjustify hheight
  have hcount := heights_count history (inserted_of_checkLog hinserted) Sample.block₂.hash 2
    Sample.block₂.justify (congrArg Except.ok hheight) (kv_blockJustify_eq_ok.mpr hjustify)
  rw [if_neg (by decide +kernel)] at hcount
  exact ⟨log, history, hcount⟩

theorem app_proposeHigh : ∀ input ∈ Sample.proposeHigh, input.app = Sample.app := by
  simp [Sample.proposeHigh, Sample.advance, Sample.propose, Sample.input]

set_option maxRecDepth 100000 in
theorem reaches_proposeHigh : Replica.reaches Sample.crypto (Sample.configuration 3) Sample.tree 20
    Sample.proposeHigh (fun s => s (.blockJustify Sample.highBlock.hash) == some .genesisPc &&
      s (.blockHeight Sample.highBlock.hash) == some 5) = true := by
  decide +kernel

theorem heights_do_not_count : ¬∀ (cr : Crypto) (config : Configuration) (apps : App → Prop)
    (appState : AppStateUpdates) (vss : ValidatorSetState) (log : List Event),
    History cr config apps (initial appState vss) log →
    let s := (initial appState vss).replay log
    ∀ b height justify, s.kv.blockHeight b = .ok (some height) →
      s.kv.blockJustify b = .ok justify →
      if justify = .genesisPc then height = 0
      else ∃ parentHeight, s.kv.blockHeight justify.block = .ok (some parentHeight) ∧
        height.val = parentHeight.val + 1 := by
  intro h
  obtain ⟨log, history, hblock⟩ := @exists_history_of_reaches _ _ (· = Sample.app) _ _ _ _ _ rfl
    app_proposeHigh reaches_proposeHigh
  simp only [Bool.and_eq_true, beq_iff_eq] at hblock
  have hzero := h _ _ _ _ _ log history Sample.highBlock.hash 5 .genesisPc
    (congrArg Except.ok hblock.2) (kv_blockJustify_eq_ok.mpr hblock.1)
  rw [if_pos rfl] at hzero
  cases hzero

end Protocol
end HotStuffRs
