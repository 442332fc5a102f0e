import HotStuffRs.BlockSync.Server
import HotStuffRs.Replica.References

/-
What a replica serves to others that sync.

As long as the committed blocks are a chain, a snapshot serves a proper chain exactly if the limit
is reached by committed blocks or the newest block is above the highest committed one.
-/

namespace HotStuffRs
namespace Protocol

open BlockTree Forest Lts

variable {cr : Crypto} {config : Configuration} {apps : App → Prop} {s₀ : BlockTree}

/-- What an event keeps of the index of committed blocks. -/
theorem TreeStep.indexedChain {s s' : BlockTree} {log : List Event} {e : Event}
    (hstep : TreeStep cr config apps s e s') (h : s.IndexedChain (committedBlocks log))
    (hs : s = s₀.replay log)
    (hinserted : Inserted s₀ (fun s block _ => s.InsertedAbove block) (log ++ [e]))
    (hcommits : ∀ s justify, ActsUpon s₀ (log ++ [e]) s justify → s.CommitsAbove justify) :
    s'.IndexedChain (committedBlocks (log ++ [e])) := by
  rw [committedBlocks_snoc]
  cases hstep with
  | act => simpa [Event.committedBlocks] using h
  | crash => simpa [Event.committedBlocks] using h
  | @insert block appStateUpdates validatorSetUpdates app _ hsafe =>
    have hblock : s.InsertedAbove block := by
      subst hs
      exact hinserted log block appStateUpdates validatorSetUpdates List.prefix_rfl
    rw [Event.committedBlocks, committedBlocks_insertBatch, List.append_nil]
    exact h.insert hblock (h.wf.parent_of_safeBlock hsafe)
  | @update justify fuel wb updates hupdate =>
    have habove : s.CommitsAbove justify :=
      hcommits s justify ⟨log, fuel, wb, updates, List.prefix_rfl, hs, hupdate⟩
    exact h.update habove hupdate
  | @note v x hv =>
    rw [Event.committedBlocks, committedBlocks_note hv, List.append_nil]
    exact h.congr (fun _ _ => block_note hv) (write_note hv (by simp [IsNote]))
      (write_note hv (by simp [IsNote])) fun height => write_note hv (by simp [IsNote])

theorem indexedChain_of_path {s : BlockTree} {log : List Event}
    (path : Path (TreeStep cr config apps) s₀ log s) (hs₀ : s₀.IndexedChain [])
    (hinserted : Inserted s₀ (fun s block _ => s.InsertedAbove block) log)
    (hcommits : ∀ s justify, ActsUpon s₀ log s justify → s.CommitsAbove justify) :
    s.IndexedChain (committedBlocks log) := by
  induction path with
  | nil => exact hs₀
  | @snoc log t e u path last ih =>
    have hprefix : log <+: log ++ [e] := List.prefix_append ..
    have hbefore := ih (hinserted.of_prefix hprefix) fun s justify hacts =>
      hcommits s justify (hacts.mono hprefix)
    exact last.indexedChain hbefore (treePath_tree path) hinserted hcommits

theorem exists_highestPc_of_path {appState : AppStateUpdates} {vss : ValidatorSetState}
    {s : BlockTree} {log : List Event}
    (path : Path (TreeStep cr config apps) (initial appState vss) log s) :
    ∃ pc, s .highestPc = some pc := by
  refine @treePath_invariant _ _ _ _ (fun s => ∃ pc, s .highestPc = some pc)
    (fun _ _ _ => True) _ _ path (fun _ _ _ _ _ => trivial) ⟨_, initial_highestPc⟩ ?_ ?_ ?_
  · intro s block _ _ _ hs _ _ _ _ _
    obtain ⟨pc, hpc⟩ := hs
    exact ⟨pc, by rw [insert_of_block?_eq_none rfl (by simp), hpc]⟩
  · intro s justify fuel wb updates _ hupdate
    obtain ⟨pc, -, hpc⟩ := highestPc_update hupdate
    exact ⟨_, hpc⟩
  · intro s v x hs hv
    obtain ⟨pc, hpc⟩ := hs
    exact ⟨pc, (write_note hv (by simp [IsNote])).trans hpc⟩

section

variable {appState : AppStateUpdates} {vss : ValidatorSetState} {log log₁ : List Event}
  (h : History cr config apps (initial appState vss) log)
  (hinserted : Inserted (initial appState vss) (fun s block _ => s.InsertedAbove block) log)
  (hcommits : ∀ s justify, ActsUpon (initial appState vss) log s justify →
    s.CommitsAbove justify)
  (hlog : log₁ <+: log) {committedHeight next height : BlockHeight}
  (hcommitted : ((initial appState vss).replay log₁).kv.highestCommittedBlockHeight =
    .ok (some committedHeight))
  (hnext : U64.add committedHeight 1 = .ok next)
include h hinserted hcommits hlog hcommitted hnext

theorem serves_iff_of_history (hheight : height ≤ next) (limit : U32) :
    let s := (initial appState vss).replay log₁
    (∃ blocks, Result.Eventually (fun fuel => s.blocksFromHeightToNewest fuel height limit) blocks ∧
      ProperChain height limit blocks) ↔
    0 < limit.val ∧ (height.val + limit.val ≤ next.val ∨ s.NewestAbove) := by
  have path := treePath_of_prefix h hlog
  have hchain := indexedChain_of_path path IndexedChain.initial (hinserted.of_prefix hlog)
    fun s justify hacts => hcommits s justify (hacts.mono hlog)
  rw [kv_highestCommittedBlockHeight, Except.ok.injEq] at hcommitted
  obtain ⟨highest, hhighest, hcommittedHeight⟩ := Option.bind_eq_some_iff.mp hcommitted
  have hcount := hchain.length_eq hhighest hcommittedHeight
  have hval : next.val = committedHeight.val + 1 := (U64.add_eq_ok.mp hnext).symm
  have hlength : (committedBlocks log₁).length = next.val := hcount.trans hval.symm
  rw [← hlength]
  refine hchain.serves_iff ?_ hhighest ?_
  · rw [hlength]
    exact next.isLt
  · rw [hlength]
    exact hheight

/-- In every history that inserts blocks of the proper height only, and commits only above what
is committed, a snapshot serves a proper chain exactly if the limit is not 0 and either is
reached by committed blocks or the newest block is above the highest committed one.  The server
keeps its own limit exactly for the requests that do. -/
theorem serves_proper_chain_iff (hheight : height ≤ next) (limit : U32) :
    let s := (initial appState vss).replay log₁
    ((∃ blocks, Result.Eventually (fun fuel => s.blocksFromHeightToNewest fuel height limit) blocks ∧
        ProperChain height limit blocks) ↔
      0 < limit.val ∧ (height.val + limit.val ≤ next.val ∨ s.NewestAbove)) ∧
    ∀ (server : BlockSyncServerConfiguration) (request : BlockSyncRequest),
      server.limit request ≤ server.requestLimit ↔ request.limit ≤ server.requestLimit :=
  ⟨serves_iff_of_history h hinserted hcommits hlog hcommitted hnext hheight limit,
    fun _ _ => BlockSyncServerConfiguration.limit_le_iff⟩

/-- The response to a request is such a chain, by the limit that the server uses. -/
theorem answers_iff_of_history {server : BlockSyncServerConfiguration}
    {request : BlockSyncRequest} (hchain : request.chainId = server.chainId)
    (hheight : request.startHeight ≤ next) :
    let s := (initial appState vss).replay log₁
    let limit := server.limit request
    (∃ response, Result.Eventually (fun fuel => server.onRequest s fuel request) (some response) ∧
      ProperChain request.startHeight limit response.blocks) ↔
    0 < limit.val ∧ (request.startHeight.val + limit.val ≤ next.val ∨ s.NewestAbove) := by
  intro s limit
  have path := treePath_of_prefix h hlog
  obtain ⟨highestPc, hhighestPc⟩ := exists_highestPc_of_path path
  have hserves := serves_iff_of_history h hinserted hcommits hlog hcommitted hnext hheight limit
  refine Iff.trans ?_ hserves
  constructor
  · rintro ⟨response, ⟨n, hn⟩, hproper⟩
    refine ⟨response.blocks, ⟨n, fun fuel hfuel => ?_⟩, hproper⟩
    exact (BlockSyncServerConfiguration.onRequest_eq_some.mp (hn fuel hfuel)).2.1
  · rintro ⟨blocks, ⟨n, hn⟩, hproper⟩
    refine ⟨⟨blocks, highestPc⟩, ⟨n, fun fuel hfuel => ?_⟩, hproper⟩
    exact BlockSyncServerConfiguration.onRequest_eq_some.mpr ⟨hchain, hn fuel hfuel, hhighestPc⟩

end

/-! ## Two committed blocks and three above them -/

/-- Whether the second block is the highest committed one and the newest block three above it. -/
def newestThreeAbove (s : BlockTree) : Bool :=
  s.kv.highestCommittedBlockHeight == .ok (some 1) &&
    s .highestCommittedBlock == some Sample.block₁.hash &&
    s .newestBlock == some Sample.block₄.hash && s.up Sample.block₄.hash == some Sample.block₃.hash &&
    s.up Sample.block₃.hash == some Sample.block₂.hash &&
    s.up Sample.block₂.hash == some Sample.block₁.hash && Sample.block₄.hash != Sample.block₁.hash

theorem newestAbove_of_three {s : BlockTree} (h : newestThreeAbove s = true) :
    s.kv.highestCommittedBlockHeight = .ok (some 1) ∧ s.NewestAbove := by
  simp only [newestThreeAbove, Bool.and_eq_true, beq_iff_eq, bne_iff_ne] at h
  obtain ⟨⟨⟨⟨⟨⟨hheight, hhighest⟩, hnewest⟩, h₄⟩, h₃⟩, h₂⟩, hne⟩ := h
  have hext : Extends s.up Sample.block₄.hash Sample.block₁.hash :=
    .of_parent h₄ (.of_parent h₃ (.parent h₂))
  exact ⟨hheight, _, _, hnewest, hhighest, hne, hext⟩

set_option maxRecDepth 100000 in
theorem checks_firstFiveViews_newest : Replica.checks Sample.crypto (Sample.configuration 3)
    Sample.tree 20 (fun _ _ => true) Sample.firstFiveViews (fun log r =>
      checkLog insertsAbove Sample.tree log && checkLog commitsChild Sample.tree log &&
      newestThreeAbove r.tree) = true := by
  decide +kernel

theorem serves_proper_chain_five_views : ∃ log,
    History Sample.crypto (Sample.configuration 3) (· = Sample.app) Sample.tree log ∧
    ∃ blocks, Result.Eventually
      (fun fuel => (Sample.tree.replay log).blocksFromHeightToNewest fuel 1 3) blocks ∧
      ProperChain 1 3 blocks := by
  obtain ⟨log, r, history, htree, hlog⟩ :=
    exists_history_of_checks app_firstFiveViews checks_firstFiveViews_newest
  simp only [Bool.and_eq_true] at hlog
  obtain ⟨⟨hinserted, hcommits⟩, hnewest⟩ := hlog
  rw [htree] at hnewest
  obtain ⟨hcommitted, habove⟩ := newestAbove_of_three hnewest
  have hnext : U64.add 1 1 = .ok 2 := rfl
  have hheight : (1 : BlockHeight) ≤ 2 := by decide
  obtain ⟨hserves, -⟩ := serves_proper_chain_iff history (inserted_of_checkLog hinserted)
    (commitsAbove_of_checkLog hcommits) List.prefix_rfl hcommitted hnext hheight 3
  exact ⟨log, history, hserves.mpr ⟨by decide, .inr habove⟩⟩

end Protocol

/-! ## The newest block is committed

The follower gets the block of view 1, and then the Commit PC for it: the newest block is the
highest committed one, and is served after itself. -/

namespace Sample

def committingInputs : List Input :=
  [lateAdvance (.timeoutCertificate timeout), late leader phasedProposal,
   lateAdvance (.phaseCertificate (phased 3 .commit)),
   late 1 (.hotStuff (.newView ⟨7, 4, phased 3 .commit⟩))]

end Sample

namespace Protocol

open BlockTree Forest Lts

/-- Whether the first block is the newest one and committed. -/
def newestCommitted (s : BlockTree) : Bool :=
  s.kv.highestCommittedBlockHeight == .ok (some 0) &&
    s .highestCommittedBlock == some Sample.block₀.hash && s .newestBlock == some Sample.block₀.hash

set_option maxRecDepth 100000 in
theorem checks_committingInputs : Replica.checks Sample.phasedCrypto
    (Sample.configuration Sample.follower) Sample.tree 30 (fun _ _ => true) Sample.committingInputs
    (fun log r => checkLog insertsAbove Sample.tree log && checkLog commitsChild Sample.tree log &&
      newestCommitted r.tree) = true := by
  decide +kernel

theorem app_committingInputs : ∀ input ∈ Sample.committingInputs,
    input.app = Sample.raisingApp := by
  simp [Sample.committingInputs, Sample.lateAdvance, Sample.late, Sample.raising]

/-- Then a limit of 10 blocks is not reached by the chain, and two blocks are served. -/
theorem served_chain_repeats : (¬∀ (cr : Crypto) (config : Configuration) (apps : App → Prop)
    (appState : AppStateUpdates) (vss : ValidatorSetState) (log : List Event)
    (committedHeight next height : BlockHeight) (limit : U32),
    History cr config apps (initial appState vss) log →
    Inserted (initial appState vss) (fun s block _ => s.InsertedAbove block) log →
    (∀ s justify, ActsUpon (initial appState vss) log s justify → s.CommitsAbove justify) →
    ((initial appState vss).replay log).kv.highestCommittedBlockHeight =
      .ok (some committedHeight) →
    U64.add committedHeight 1 = .ok next → height ≤ next →
    ∃ blocks, Result.Eventually (fun fuel =>
        ((initial appState vss).replay log).blocksFromHeightToNewest fuel height limit) blocks ∧
      ProperChain height limit blocks) ∧
    ¬∀ (server : BlockSyncServerConfiguration) (request : BlockSyncRequest),
      server.limit request ≤ server.requestLimit := by
  constructor
  · intro h
    obtain ⟨log, r, history, htree, hlog⟩ :=
      exists_history_of_checks app_committingInputs checks_committingInputs
    rw [htree] at hlog
    simp only [newestCommitted, Bool.and_eq_true, beq_iff_eq] at hlog
    obtain ⟨⟨hinserted, hcommits⟩, ⟨hcommitted, hhighest⟩, hnewest⟩ := hlog
    have hinserted := inserted_of_checkLog hinserted
    have hcommits := commitsAbove_of_checkLog hcommits
    have hnext : U64.add 0 1 = .ok 1 := rfl
    have hheight : (0 : BlockHeight) ≤ 1 := by decide
    have hserves := h _ _ _ _ _ log 0 1 0 10 history hinserted hcommits hcommitted hnext hheight
    obtain ⟨-, hlimit | ⟨newest, highest, hnewest', hhighest', hne, -⟩⟩ :=
      (serves_iff_of_history history hinserted hcommits List.prefix_rfl hcommitted hnext hheight
        10).mp hserves
    · exact absurd hlimit (by decide)
    · obtain rfl := Option.some.inj (hnewest'.symm.trans hnewest)
      obtain rfl := Option.some.inj (hhighest'.symm.trans hhighest)
      exact hne rfl
  · intro h
    exact absurd (h ⟨7, 10⟩ ⟨7, 0, 11⟩) (by decide)

end Protocol
end HotStuffRs
