import HotStuffRs.BlockTree.AppView
import HotStuffRs.BlockTree.ChainIndex
import HotStuffRs.Kv.Overlay

/-
The committed blocks, executed.

An application is a state transition function: a block and the app state before it determine the
updates that the block makes.  The tree has the updates of the committed blocks in the app state,
and keeps those of the blocks above them for later, each computed from the state that the blocks
below leave behind.
-/

namespace HotStuffRs

open Kv Forest

abbrev AppState := List Byte → Option (List Byte)

/-- What the updates make of each key. -/
def AppStateUpdates.changes (updates : Option AppStateUpdates) :
    Overlay.Changes (List Byte) (List Byte) :=
  fun key => updates.bind (·.effect? key)

/-- The app state after the blocks `bs`, oldest first. -/
def execute {B : Type} (transition : B → AppState → Option AppStateUpdates) (appState : AppState)
    (bs : List B) : AppState :=
  Overlay.run (fun b appState => AppStateUpdates.changes (transition b appState)) appState bs

namespace BlockTree

variable {s : BlockTree} {cs us : List CryptoHash} {b : CryptoHash}

/-! ## The view of a chain -/

/-- On a walk of stored blocks `app_view` finds nothing but these. -/
theorem eq_of_ancestorsAbove {minHeight : Option BlockHeight} {cursor : Option CryptoHash}
    (h : Walk s minHeight cursor us) (hus : ∀ b ∈ us, ∃ height, s (.blockHeight b) = some height)
    {fuel : Nat} {us' : List CryptoHash}
    (hok : ancestorsAbove s minHeight fuel cursor cursor = .ok us') : us' = us := by
  induction h generalizing fuel us' with
  | root =>
    cases fuel <;> exact (Except.ok.inj hok).symm
  | @stop b height min hmin hb hle =>
    cases fuel with
    | zero => cases hok
    | succ fuel =>
      rw [ancestorsAbove_of_walk (.stop hmin hb hle) nofun (Nat.succ_pos fuel)] at hok
      exact (Except.ok.inj hok).symm
  | @step b us habove rest ih =>
    cases fuel with
    | zero => cases hok
    | succ fuel =>
      obtain ⟨height, hheight⟩ := hus b List.mem_cons_self
      have hmin : minHeight.all (· < height) = true := by
        cases hm : minHeight with
        | none => rfl
        | some min =>
          obtain ⟨height', hheight', hlt⟩ := habove min hm
          obtain rfl : height = height' := Option.some.inj (hheight.symm.trans hheight')
          simpa using hlt
      simp only [ancestorsAbove, nextHeight, kv_blockHeight, hheight, kv_parent?, Result.pure_eq,
        Result.ok_bind, hmin, if_true, Result.bind_eq_ok, Except.ok.injEq] at hok
      obtain ⟨rest', hrest', rfl⟩ := hok
      rw [ih (fun b hb => hus b (List.mem_cons_of_mem _ hb)) hrest']

namespace IndexedChain

variable (h : s.IndexedChain cs)
include h

theorem isChain : (0 :: cs).IsChain fun p c => s.up c = some p := by
  refine List.isChain_cons.mpr ⟨fun b hb => up_eq_some.mpr ⟨_, h.rooted b hb, rfl⟩, h.linked⟩

/-- A chain that goes on where the committed blocks end is walked down to these. -/
theorem walk (hchain : (0 :: (cs ++ us)).IsChain fun p c => s.up c = some p) :
    Walk s s.committedHeight (cs ++ us).getLast? us.reverse := by
  induction us using List.reverseRecOn with
  | nil =>
    rw [List.append_nil, ← h.highest]
    cases hhighest : s .highestCommittedBlock with
    | none => exact .root
    | some highest =>
      have hmem := List.mem_of_getLast? (h.highest.symm.trans hhighest)
      obtain ⟨height, hheight⟩ := h.wf.exists_height (h.stored highest hmem)
      refine .stop ?_ hheight le_rfl
      rw [committedHeight, hhighest]
      exact hheight
  | append_singleton us b ih =>
    rw [← List.append_assoc] at hchain ⊢
    obtain ⟨hbefore, hparent⟩ := Extends.parent_of_concat hchain
    rw [List.getLast?_concat, List.reverse_append, List.reverse_singleton, List.singleton_append]
    refine .step (fun min hmin => ?_) ?_
    · obtain ⟨height, hheight⟩ := h.wf.exists_height (.of_up hparent)
      refine ⟨height, hheight, ?_⟩
      obtain ⟨highest, hhighest, hmin⟩ := Option.bind_eq_some_iff.mp hmin
      have hmem := List.mem_of_getLast? (h.highest.symm.trans hhighest)
      have hext : Extends s.up b highest := by
        obtain ⟨cs₁, cs₂, rfl⟩ := List.append_of_mem hmem
        rw [List.append_assoc, List.append_assoc, List.cons_append, ← List.cons_append] at hchain
        exact .of_isChain hchain.right_of_append (by simp)
      have hne : b ≠ highest := by
        rintro rfl
        exact h.wf.acyclic.notMem_of_concat hchain (List.mem_append_left _ hmem)
      exact h.heights.lt_of_extends h.wf hext hne hheight hmin
    · rcases List.eq_nil_or_concat (cs ++ us) with hnil | ⟨l, p, hp⟩
      · rw [hnil] at hparent
        rw [(h.wf.parent_eq_none (.of_up hparent)).mpr hparent]
        obtain ⟨-, rfl⟩ := List.append_eq_nil_iff.mp hnil
        exact .root
      · rw [List.concat_eq_append] at hp
        rw [hp, List.getLastD_concat] at hparent
        have hzero : p ≠ 0 := by
          rintro rfl
          rw [hp] at hbefore
          exact h.wf.genesis (.of_up (Extends.parent_of_concat hbefore).2)
        have hlast : (cs ++ us).getLast? = some p := by rw [hp, List.getLast?_concat]
        rw [h.wf.parent_of_up hparent hzero, ← hlast]
        exact ih hbefore

theorem exists_height_of_chain (hchain : (0 :: (cs ++ us)).IsChain fun p c => s.up c = some p) :
    ∀ b ∈ us.reverse, ∃ height, s (.blockHeight b) = some height := by
  intro b hb
  have hmem : b ∈ cs ++ us := List.mem_append_right _ (List.mem_reverse.mp hb)
  obtain ⟨p, hp⟩ := Extends.exists_parent_of_mem hchain hmem
  exact h.wf.exists_height (.of_up hp)

/-- The view of a chain can be had. -/
theorem eventually_appView (hchain : (0 :: (cs ++ us)).IsChain fun p c => s.up c = some p) :
    ∃ view, Result.Eventually (fun fuel => s.appView fuel (cs ++ us).getLast?) view := by
  have hwalk := h.walk hchain
  cases hlast : (cs ++ us).getLast? with
  | none =>
    refine ⟨⟨s, []⟩, 0, fun fuel _ => ?_⟩
    simp only [appView, kv_highestCommittedBlockHeight, Result.ok_bind]
    cases fuel <;> rfl
  | some p =>
    rw [hlast] at hwalk
    exact ⟨_, appView_of_walk hwalk (h.exists_height_of_chain hchain)⟩

/-- The App is told of the block that ends the chain below. -/
theorem parent?_eq (hchain : (0 :: (cs ++ us)).IsChain fun p c => s.up c = some p) {block : Block}
    (hparent : block.justify = .genesisPc ∨ s.Stored block.justify.block)
    (hlast : block.justify.block = (cs ++ us).getLastD 0) : block.parent? = (cs ++ us).getLast? := by
  rcases List.eq_nil_or_concat (cs ++ us) with hnil | ⟨l, p, hp⟩
  · rw [hnil] at hlast ⊢
    have hgenesis : block.justify = .genesisPc := by
      refine hparent.resolve_right fun hstored => ?_
      rw [hlast] at hstored
      exact h.wf.genesis hstored
    rw [Block.parent?, hgenesis]
    rfl
  · rw [List.concat_eq_append] at hp
    rw [hp] at hchain
    rw [hp, List.getLastD_concat] at hlast
    rw [hp, List.getLast?_concat, Block.parent?, if_neg ?_, hlast]
    intro hgenesis
    have hzero : block.justify = .genesisPc := by simpa [PhaseCertificate.isGenesisPc] using hgenesis
    have hstored : s.Stored p := .of_up (Extends.parent_of_concat hchain).2
    rw [← hlast, hzero] at hstored
    exact h.wf.genesis hstored

end IndexedChain

/-- An update gives no block another parent. -/
theorem up_of_update {justify : PhaseCertificate} {fuel : Nat} {wb : WriteBatch}
    {updates : Option ValidatorSetUpdates} (h : s.updateBatch fuel justify = .ok (wb, updates))
    {p : CryptoHash} (hp : up (s.write wb) b = some p) : s.up b = some p := by
  rw [up] at hp ⊢
  rcases field_write_update h (v := .blockJustify b) rfl with hkept | hgone
  · rwa [hkept] at hp
  · rw [hgone] at hp
    cases hp

/-! ## The tree of a state machine -/

/-- The updates of the committed blocks `cs` are in the app state, which was `appState₀` at first,
and those of the blocks on top of them are there. -/
structure Executed (transition : CryptoHash → AppState → Option AppStateUpdates)
    (appState₀ : AppState) (s : BlockTree) (cs : List CryptoHash) : Prop where
  committed : ∀ key, s (.committedAppState key) = execute transition appState₀ cs key
  pending : ∀ us b, ((0 :: (cs ++ us ++ [b])).IsChain fun p c => s.up c = some p) →
    s (.pendingAppStateUpdates b) = transition b (execute transition appState₀ (cs ++ us))
  absent : ∀ b, ¬s.Stored b → s (.pendingAppStateUpdates b) = none

namespace Executed

variable {transition : CryptoHash → AppState → Option AppStateUpdates} {appState₀ : AppState}

theorem initial {appState : AppStateUpdates} {vss : ValidatorSetState} :
    Executed transition (fun key => BlockTree.initial appState vss (.committedAppState key))
      (BlockTree.initial appState vss) [] where
  committed _ := rfl
  pending us b hchain := by
    have hup := (Extends.parent_of_concat hchain).2
    exact absurd (Stored.of_up hup) (not_stored_initial b)
  absent b _ := initial_of_block? rfl

theorem congr (h : Executed transition appState₀ s cs) {s' : BlockTree}
    (hkept : ∀ v : Var, (∃ b, v.block? = some b) ∨ (∃ key, v = .committedAppState key) → s' v = s v) :
    Executed transition appState₀ s' cs where
  committed key := (hkept _ (.inr ⟨key, rfl⟩)).trans (h.committed key)
  pending us b hchain := by
    have hup : s'.up = s.up := by
      funext c
      rw [up, up, hkept _ (.inl ⟨c, rfl⟩)]
    rw [hup] at hchain
    exact (hkept _ (.inl ⟨b, rfl⟩)).trans (h.pending us b hchain)
  absent b hb := by
    rw [Stored, hkept _ (.inl ⟨b, rfl⟩)] at hb
    exact (hkept _ (.inl ⟨b, rfl⟩)).trans (h.absent b hb)

variable (h : Executed transition appState₀ s cs) (hindexed : s.IndexedChain cs)
include h hindexed

omit hindexed in
/-- Above the committed blocks, the pending updates are those of the state machine. -/
theorem execute_eq (hchain : (0 :: (cs ++ us)).IsChain fun p c => s.up c = some p) (key : List Byte) :
    execute transition appState₀ (cs ++ us) key =
      (us.reverse.findSome? fun b => (s (.pendingAppStateUpdates b)).bind (·.effect? key)).getD
        (s (.committedAppState key)) := by
  rw [execute, Overlay.run_append, h.committed key]
  refine Overlay.run_eq_of_recorded (fun b => AppStateUpdates.changes (s (.pendingAppStateUpdates b)))
    (fun before b hbefore => ?_) key
  obtain ⟨rest, rfl⟩ := hbefore
  rw [← List.append_assoc, ← List.append_assoc, ← List.cons_append] at hchain
  rw [← Overlay.run_append]
  exact congrArg AppStateUpdates.changes (h.pending before b hchain.left_of_append)

/-- The view of a block on top of the committed ones shows the state after the chain below. -/
theorem appState_of_appView (hchain : (0 :: (cs ++ us)).IsChain fun p c => s.up c = some p)
    {fuel : Nat} {view : AppBlockTreeView} (hview : s.appView fuel (cs ++ us).getLast? = .ok view) :
    view.appState = execute transition appState₀ (cs ++ us) := by
  have hwalk := hindexed.walk hchain
  have hus := hindexed.exists_height_of_chain hchain
  simp only [appView, kv_highestCommittedBlockHeight, Result.ok_bind, Result.bind_eq_ok,
    Result.pure_eq, Except.ok.injEq, kv_pendingAppStateUpdates, Result.ok?_ok] at hview
  obtain ⟨ancestors, hancestors, rfl⟩ := hview
  rw [eq_of_ancestorsAbove hwalk hus hancestors, List.filterMap_eq_map']
  funext key
  rw [h.execute_eq hchain, AppBlockTreeView.appState_eq, List.findSome?_map]
  simp only [KVGet.committedAppState]
  rfl

end Executed

/-! ## Insertions and updates -/

/-- The updates of the blocks above those that are committed stay where they are. -/
theorem pending_update (wf : s.WellFormed) {justify : PhaseCertificate} {fuel : Nat} {wb : WriteBatch}
    {updates : Option ValidatorSetUpdates} (hupdate : s.updateBatch fuel justify = .ok (wb, updates))
    (hb : Stored (s.write wb) b)
    (hnot : b ∉ wb.committedBlocks) :
    s.write wb (.pendingAppStateUpdates b) = s (.pendingAppStateUpdates b) := by
  obtain ⟨commitBatch, hcommits, hwrite⟩ := commitsFor_committedBlocks wf hupdate
  rw [Stored, hwrite _ rfl (by simp)] at hb
  rw [hwrite _ rfl (by simp)]
  rcases hcommits with ⟨target, -, hcommits⟩ | ⟨-, -, rfl⟩
  · have hpruned := ((hcommits.stored_write wf).mp hb).2
    refine hcommits.kept rfl (fun c hc hx => hpruned ⟨c, hc, hx⟩) ?_ ?_ ?_
    · rintro c - p - ⟨⟩
    · intro c hc hkey
      obtain rfl := Var.pendingAppStateUpdates.inj hkey
      exact hnot (List.mem_reverse.mp hc)
    · rintro c - updates - ⟨⟩
  · rfl

section insert

variable {block : Block} {appStateUpdates : Option AppStateUpdates}
  {validatorSetUpdates : Option ValidatorSetUpdates}

theorem pending_insert : s.insert block appStateUpdates validatorSetUpdates
    (.pendingAppStateUpdates b) =
      if b = block.hash then appStateUpdates.or (s (.pendingAppStateUpdates b))
      else s (.pendingAppStateUpdates b) := by
  have hkept : (∀ updates, appStateUpdates = some updates → b ≠ block.hash) →
      s.insert block appStateUpdates validatorSetUpdates (.pendingAppStateUpdates b) =
        s (.pendingAppStateUpdates b) := by
    intro hne
    refine Store.write_of_notMem s fun o ho hkey => ?_
    cases mem_insertBatch.mp ho with
    | block ho =>
      have hfield := (key_of_mem_setBlock ho).1
      rw [← hkey] at hfield
      cases hfield
    | appState hupdates => exact hne _ hupdates (Var.pendingAppStateUpdates.inj hkey)
    | newestBlock | validatorSet | children => cases hkey
  split
  · rename_i hb
    subst hb
    cases appStateUpdates with
    | none => exact hkept nofun
    | some updates =>
      refine Store.write_of_unique s (mem_insertBatch.mpr (.appState rfl)) fun o ho hkey => ?_
      cases mem_insertBatch.mp ho with
      | block ho =>
        have hfield := (key_of_mem_setBlock ho).1
        rw [hkey] at hfield
        cases hfield
      | appState hupdates =>
        obtain rfl := Option.some.inj hupdates
        rfl
      | newestBlock | validatorSet | children => cases hkey
  · rename_i hb
    exact hkept fun _ _ => hb

/-- A block that was there already has the parent that it had. -/
theorem up_of_insert (hfresh : s.Fresh block) {p : CryptoHash} (hb : b = block.hash → s.Stored b)
    (hup : (s.insert block appStateUpdates validatorSetUpdates).up b = some p) :
    s.up b = some p := by
  rw [up_insert] at hup
  split at hup
  · rename_i heq
    obtain ⟨justify, hjustify⟩ := Option.isSome_iff_exists.mp (hb heq)
    rw [heq] at hjustify ⊢
    rw [← hup, up, hjustify, (hfresh.same justify hjustify).1]
    rfl
  · exact hup

/-- A chain of the new tree is one of the old tree, but for its last block. -/
theorem isChain_of_insert (wf : s.WellFormed) (hfresh : s.Fresh block)
    (wf' : (s.insert block appStateUpdates validatorSetUpdates).WellFormed) {l : List CryptoHash}
    (hchain : (0 :: (l ++ [b])).IsChain fun p c =>
      (s.insert block appStateUpdates validatorSetUpdates).up c = some p) :
    (0 :: l).IsChain fun p c => s.up c = some p := by
  induction l using List.reverseRecOn generalizing b with
  | nil => exact .singleton _
  | append_singleton l c ih =>
    obtain ⟨hbefore, hup⟩ := Extends.parent_of_concat hchain
    rw [List.getLastD_concat] at hup
    refine Extends.isChain_concat.mpr ⟨ih hbefore, ?_⟩
    refine up_of_insert hfresh ?_ (Extends.parent_of_concat hbefore).2
    -- A block that has a child is not new.
    rintro rfl
    have hne : b ≠ block.hash := by
      rintro rfl
      exact wf'.acyclic.not_extends_parent hup (.refl _)
    obtain ⟨justify, hjustify, hblock⟩ :=
      up_eq_some.mp (up_of_insert hfresh (fun heq => absurd heq hne) hup)
    rcases wf.parent b justify hjustify with hgenesis | hstored
    · rw [hgenesis] at hblock
      exact absurd hblock.symm hfresh.hash
    · rwa [hblock] at hstored

end insert

namespace Executed

variable {transition : CryptoHash → AppState → Option AppStateUpdates} {appState₀ : AppState}

/-- A block is inserted with the updates that it makes of the state that the App is shown. -/
theorem insert (h : Executed transition appState₀ s cs) (hindexed : s.IndexedChain cs) {block : Block}
    {appStateUpdates : Option AppStateUpdates} {validatorSetUpdates : Option ValidatorSetUpdates}
    {fuel : Nat} {view : AppBlockTreeView} (hblock : s.InsertedAbove block)
    (hparent : block.justify = .genesisPc ∨ s.Stored block.justify.block)
    (hview : s.appView fuel block.parent? = .ok view)
    (hupdates : appStateUpdates = transition block.hash view.appState) :
    Executed transition appState₀ (s.insert block appStateUpdates validatorSetUpdates) cs where
  committed key := by
    rw [insert_of_block?_eq_none rfl (by simp)]
    exact h.committed key
  pending us b hchain := by
    have hwf' : (s.insert block appStateUpdates validatorSetUpdates).WellFormed :=
      (hindexed.insert hblock hparent).wf
    have hbefore := isChain_of_insert hindexed.wf hblock.fresh hwf' hchain
    have hlast := (Extends.parent_of_concat hchain).2
    have hold : (b = block.hash → s.Stored b) →
        s (.pendingAppStateUpdates b) = transition b (execute transition appState₀ (cs ++ us)) :=
      fun hb => h.pending us b (Extends.isChain_concat.mpr ⟨hbefore, up_of_insert hblock.fresh hb hlast⟩)
    rw [pending_insert]
    split
    · rename_i hb
      subst hb
      rw [up_insert, if_pos rfl, Option.some.injEq] at hlast
      have hview' : s.appView fuel (cs ++ us).getLast? = .ok view := by
        rw [← hindexed.parent?_eq hbefore hparent hlast]
        exact hview
      have hstate := h.appState_of_appView hindexed hbefore hview'
      rw [← hstate, ← hupdates] at hold ⊢
      cases appStateUpdates with
      | some updates => rfl
      | none =>
        by_cases hstored : s.Stored block.hash
        · exact hold fun _ => hstored
        · exact h.absent block.hash hstored
    · rename_i hb
      exact hold fun heq => absurd heq hb
  absent b hb := by
    rw [stored_insert, not_or] at hb
    rw [pending_insert, if_neg hb.1]
    exact h.absent b hb.2

section update

variable (h : Executed transition appState₀ s cs) (hindexed : s.IndexedChain cs)
  {justify : PhaseCertificate} {fuel : Nat} {wb : WriteBatch}
  {updates : Option ValidatorSetUpdates} (habove : s.CommitsAbove justify)
  (hupdate : s.updateBatch fuel justify = .ok (wb, updates))
include h hindexed habove hupdate

theorem committed_update (key : List Byte) : s.write wb (.committedAppState key) =
    execute transition appState₀ (cs ++ wb.committedBlocks) key := by
  have hchain : (0 :: (cs ++ wb.committedBlocks)).IsChain fun p c => s.up c = some p :=
    ((hindexed.update habove hupdate).isChain).imp fun p c => up_of_update hupdate
  rw [h.execute_eq hchain]
  obtain ⟨highest, new, target, commitBatch, -, -, htarget, hcommit, hnone, rfl⟩ :=
    updateBatch_eq_ok hupdate
  rw [write_updateBatch_of_not_isProgress rfl (by simp), committedBlocks_updateBatch]
  cases target with
  | none =>
    rw [hnone rfl]
    rfl
  | some target =>
    obtain ⟨committed, hcommit⟩ := hcommit target rfl
    rw [Store.write_eq, result?_commit (walk_committedBlocks hcommit) hcommit]

omit habove in
theorem absent_update {b : CryptoHash} (hb : ¬Stored (s.write wb) b) :
    s.write wb (.pendingAppStateUpdates b) = none := by
  obtain ⟨commitBatch, hcommits, hwrite⟩ := commitsFor_committedBlocks hindexed.wf hupdate
  rw [Stored, hwrite _ rfl (by simp)] at hb
  rw [hwrite _ rfl (by simp)]
  rcases hcommits with ⟨target, -, hcommits⟩ | ⟨-, -, rfl⟩
  · by_cases hpruned : Commits.Prunes s wb.committedBlocks.reverse b
    · exact hcommits.pruned_gone hindexed.wf hpruned rfl rfl
    · have hunstored : ¬s.Stored b :=
        fun hstored => hb ((hcommits.stored_write hindexed.wf).mpr ⟨hstored, hpruned⟩)
      have hnone := h.absent b hunstored
      cases hwritten : s.write commitBatch (.pendingAppStateUpdates b) with
      | none => rfl
      | some updates =>
        rcases Store.cases_of_write s hwritten with hset | ⟨-, hs⟩
        · obtain ⟨c, -, ho⟩ := (hcommits.mem _).mp hset
          cases ho with
          | prune _ ho => cases (delete_of_mem_deleteBranchBlock ho).1
          | appState _ ho =>
            obtain ⟨key, hk⟩ := set_of_mem_applyAppStateUpdates ho
            cases hk
          | validatorSet _ _ _ ho =>
            have hk := key_of_mem_validatorSetOps ho
            simp at hk
        · cases hnone.symm.trans hs
  · exact h.absent b hb

theorem update : Executed transition appState₀ (s.write wb) (cs ++ wb.committedBlocks) where
  committed := h.committed_update hindexed habove hupdate
  pending us b hchain := by
    have hindexed' := hindexed.update habove hupdate
    have hnot := hindexed'.wf.acyclic.notMem_of_concat hchain
    have hstored : Stored (s.write wb) b := .of_up (Extends.parent_of_concat hchain).2
    rw [pending_update hindexed.wf hupdate hstored fun hmem =>
      hnot (List.mem_append_left _ (List.mem_append_right _ hmem)), List.append_assoc]
    refine h.pending (wb.committedBlocks ++ us) b ?_
    rw [← List.append_assoc cs]
    exact hchain.imp fun p c => up_of_update hupdate
  absent b := h.absent_update hindexed hupdate

end update

end Executed

end BlockTree
end HotStuffRs
