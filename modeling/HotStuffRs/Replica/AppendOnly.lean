import HotStuffRs.BlockTree.CommittedChain
import HotStuffRs.BlockTree.Safe
import HotStuffRs.Replica.Heights
import HotStuffRs.Replica.Lock
import HotStuffRs.Replica.Network

/-
The committed chain is append-only.

Every block that a replica commits stays, under the height that it has, and the next block
committed is its child.  This needs the heights of blocks to count justify links, since
`commit` goes by heights, and every block to commit to extend those committed before.
-/

namespace HotStuffRs

open Kv Lts

/-- The blocks that an event commits, in their order. -/
def Event.committedBlocks : Event → List CryptoHash
  | .effect (.write wb) => WriteBatch.committedBlocks wb
  | _ => []

/-- The blocks that a replica has committed, in order. -/
def committedBlocks (log : List Event) : List CryptoHash := log.flatMap Event.committedBlocks

theorem committedBlocks_snoc (log : List Event) (e : Event) :
    committedBlocks (log ++ [e]) = committedBlocks log ++ e.committedBlocks := by
  simp [committedBlocks]

theorem mem_committedBlocks_append {log : List Event} {b : CryptoHash}
    (hb : b ∈ committedBlocks log) (log' : List Event) : b ∈ committedBlocks (log ++ log') := by
  rw [committedBlocks, List.flatMap_append]
  exact List.mem_append_left _ hb

theorem committedBlocks_of_isPrefix {log log' : List Event} (h : log <+: log') :
    committedBlocks log <+: committedBlocks log' := by
  obtain ⟨rest, rfl⟩ := h
  rw [committedBlocks, committedBlocks, List.flatMap_append]
  exact List.prefix_append ..

namespace BlockTree

/-- The fields and the data of `b` in `s` are in `s'`, too, and its height is the same. -/
structure KeepsBlock (s s' : BlockTree) (b : CryptoHash) : Prop where
  fields : ∀ v : Var, v.isField = true → v.block? = some b → (s v).isSome = true →
    (s' v).isSome = true
  height : s' (.blockHeight b) = s (.blockHeight b)

variable {s s' s'' : BlockTree} {b : CryptoHash}

theorem KeepsBlock.of_eq (h : ∀ v : Var, v.isField = true → v.block? = some b → s' v = s v) :
    KeepsBlock s s' b where
  fields v hv hb hs := by rwa [h v hv hb]
  height := h _ rfl rfl

theorem KeepsBlock.trans (h : KeepsBlock s s' b) (h' : KeepsBlock s' s'' b) :
    KeepsBlock s s'' b where
  fields v hv hb hs := h'.fields v hv hb (h.fields v hv hb hs)
  height := h'.height.trans h.height

theorem keepsBlock_insert (wf : s.WellFormed) {block : Block} (hfresh : s.Fresh block)
    {appStateUpdates : Option AppStateUpdates} {validatorSetUpdates : Option ValidatorSetUpdates}
    (hb : s.Stored b) : KeepsBlock s (s.insert block appStateUpdates validatorSetUpdates) b where
  fields v hv hvb hs := by
    refine Store.isSome_write s hs fun ho => ?_
    cases mem_insertBatch.mp ho with
    | block ho => simp [WriteBatch.setBlock] at ho
  height := by
    obtain ⟨height, hheight⟩ := wf.exists_height hb
    rw [hheight]
    exact height_insert_of_fresh wf hfresh hheight

end BlockTree

namespace Protocol

open BlockTree

variable {cr : Crypto} {config : Configuration} {apps : App → Prop} {s₀ : BlockTree}

/-- The committed chain of a replica is only ever appended to. -/
structure AppendOnly (s₀ : BlockTree) (log : List Event) : Prop where
  height_mono : ∀ log₁ log₂, log₁ ++ log₂ <+: log →
    ∀ height, (s₀.replay log₁).kv.highestCommittedBlockHeight = .ok (some height) →
      ∃ height', (s₀.replay (log₁ ++ log₂)).kv.highestCommittedBlockHeight = .ok (some height') ∧
        height ≤ height'
  kept : ∀ log₁ log₂, log₁ ++ log₂ <+: log → ∀ b ∈ committedBlocks log₁,
    (∃ block, (s₀.replay (log₁ ++ log₂)).kv.block b = .ok (some block)) ∧
      ∀ v : Var, v.isField = true → v.block? = some b → (s₀.replay log₁ v).isSome = true →
        (s₀.replay (log₁ ++ log₂) v).isSome = true
  named : ∀ log₁ log₂, log₁ ++ log₂ <+: log → ∀ b ∈ committedBlocks log₁,
    ∀ height, (s₀.replay log₁).kv.blockHeight b = .ok (some height) →
      (s₀.replay (log₁ ++ log₂)).kv.blockHeight b = .ok (some height) ∧
        (s₀.replay (log₁ ++ log₂)).kv.blockAtHeight height = .ok (some b)
  linked : ∀ log₁, log₁ <+: log → (committedBlocks log₁).IsChain fun earlier later =>
    ∃ justify, (s₀.replay log₁).kv.blockJustify later = .ok justify ∧ justify.block = earlier

/-- The committed blocks of a log are a chain, and those of each part of it are kept. -/
structure KeepsChain (s₀ : BlockTree) (log : List Event) (s : BlockTree) : Prop where
  chain : s.CommittedChain (committedBlocks log)
  kept : ∀ before, before <+: log → ∀ b ∈ committedBlocks before,
    KeepsBlock (s₀.replay before) s b

namespace KeepsChain

variable {s s' : BlockTree} {log : List Event} {e : Event}

/-- What one event has to keep. -/
theorem snoc (h : KeepsChain s₀ log s) (hs' : s' = s₀.replay (log ++ [e]))
    (hchain : s'.CommittedChain (committedBlocks log ++ e.committedBlocks))
    (hkept : ∀ b ∈ committedBlocks log, KeepsBlock s s' b) : KeepsChain s₀ (log ++ [e]) s' where
  chain := by rwa [committedBlocks_snoc]
  kept before hbefore b hb := by
    rcases List.prefix_concat_iff.mp hbefore with rfl | hbefore
    · rw [← hs']
      exact .of_eq fun _ _ _ => rfl
    · refine (h.kept before hbefore b hb).trans (hkept b ?_)
      obtain ⟨rest, rfl⟩ := hbefore
      exact mem_committedBlocks_append hb rest

theorem step (h : KeepsChain s₀ log s) (hstep : TreeStep cr config apps s e s')
    (hs : s = s₀.replay log)
    (hinserted : Inserted s₀ (fun s block _ => s.InsertedAbove block) (log ++ [e]))
    (hcommits : ∀ s justify, ActsUpon s₀ (log ++ [e]) s justify → s.CommitsAbove justify) :
    KeepsChain s₀ (log ++ [e]) s' := by
  have hs' : s' = s₀.replay (log ++ [e]) := by
    rw [hstep.tree_eq, replay_snoc, hs]
  have hsame : ∀ (e : Event), s' = s → s' = s₀.replay (log ++ [e]) → e.committedBlocks = [] →
      KeepsChain s₀ (log ++ [e]) s' := by
    intro e heq hs' he
    refine h.snoc hs' ?_ fun b _ => .of_eq fun _ _ _ => by rw [heq]
    rw [he, List.append_nil, heq]
    exact h.chain
  cases hstep with
  | act a => exact hsame _ rfl hs' rfl
  | crash => exact hsame _ rfl hs' rfl
  | @insert block appStateUpdates validatorSetUpdates app _ hsafe =>
    have hblock : s.InsertedAbove block := by
      subst hs
      exact hinserted log block appStateUpdates validatorSetUpdates List.prefix_rfl
    have hparent := h.chain.wf.parent_of_safeBlock hsafe
    refine h.snoc hs' ?_ fun b hb =>
      keepsBlock_insert h.chain.wf hblock.fresh (h.chain.stored b hb)
    rw [Event.committedBlocks, committedBlocks_insertBatch, List.append_nil]
    exact h.chain.insert hblock hparent
  | @update justify fuel wb updates hupdate =>
    have habove : s.CommitsAbove justify :=
      hcommits s justify ⟨log, fuel, wb, updates, List.prefix_rfl, hs, hupdate⟩
    obtain ⟨hchain, hkept⟩ := h.chain.update habove hupdate
    exact h.snoc hs' hchain fun b hb => .of_eq fun v hv hvb => hkept v b hv hvb hb
  | @note v x hv =>
    refine h.snoc hs' ?_ fun b _ => .of_eq fun v' _ hvb => block_note hv hvb
    rw [Event.committedBlocks, committedBlocks_note hv, List.append_nil]
    exact h.chain.congr (fun _ _ => block_note hv) (write_note hv (by simp [IsNote]))
      fun height => write_note hv (by simp [IsNote])

theorem of_path (path : Path (TreeStep cr config apps) s₀ log s) (hs₀ : s₀.CommittedChain [])
    (hinserted : Inserted s₀ (fun s block _ => s.InsertedAbove block) log)
    (hcommits : ∀ s justify, ActsUpon s₀ log s justify → s.CommitsAbove justify) :
    KeepsChain s₀ log s := by
  induction path with
  | nil =>
    refine ⟨hs₀, fun before hbefore b hb => ?_⟩
    obtain rfl := List.prefix_nil.mp hbefore
    cases hb
  | @snoc log t e u path last ih =>
    have hprefix : log <+: log ++ [e] := List.prefix_append ..
    refine (ih (hinserted.of_prefix hprefix) fun s justify hacts =>
      hcommits s justify (hacts.mono hprefix)).step last (treePath_tree path) hinserted hcommits

/-- If the committed blocks are linked throughout, then all blocks to commit were above. -/
theorem commitsAbove_of_path (path : Path (TreeStep cr config apps) s₀ log s)
    (hs₀ : s₀.CommittedChain [])
    (hinserted : Inserted s₀ (fun s block _ => s.InsertedAbove block) log)
    (hlinked : ∀ log₁, log₁ <+: log →
      (committedBlocks log₁).IsChain fun p c => (s₀.replay log₁).up c = some p) :
    ∀ s justify, ActsUpon s₀ log s justify → s.CommitsAbove justify := by
  induction path with
  | nil =>
    rintro s justify ⟨before, fuel, wb, updates, hbefore, -, -⟩
    cases (List.append_eq_nil_iff.mp (List.prefix_nil.mp hbefore)).2
  | @snoc log t e u path last ih =>
    have hprefix : log <+: log ++ [e] := List.prefix_append ..
    have hbefore := ih (hinserted.of_prefix hprefix)
      fun log₁ hlog => hlinked log₁ (hlog.trans hprefix)
    rintro s justify ⟨log', fuel, wb, updates, hlog', rfl, hupdate⟩
    rcases List.prefix_concat_iff.mp hlog' with heq | hlog'
    · obtain ⟨rfl, he⟩ := List.append_inj' heq rfl
      obtain rfl : .effect (.write wb) = e := (List.cons.inj he).1
      have hkeeps := of_path path hs₀ (hinserted.of_prefix hprefix) hbefore
      rw [treePath_tree path] at hkeeps
      refine hkeeps.chain.commitsAbove hupdate ?_
      have hchain := hlinked _ List.prefix_rfl
      rwa [committedBlocks_snoc, replay_snoc] at hchain
    · exact hbefore _ justify ⟨log', fuel, wb, updates, hlog', rfl, hupdate⟩

variable {log₁ log₂ : List Event} (h₁ : KeepsChain s₀ log₁ (s₀.replay log₁))
  (h : KeepsChain s₀ (log₁ ++ log₂) (s₀.replay (log₁ ++ log₂)))
include h

theorem named {b : CryptoHash} (hb : b ∈ committedBlocks log₁) {height : BlockHeight}
    (hheight : s₀.replay log₁ (.blockHeight b) = some height) :
    s₀.replay (log₁ ++ log₂) (.blockHeight b) = some height ∧
      s₀.replay (log₁ ++ log₂) (.blockAtHeight height) = some b := by
  have hkept := (h.kept log₁ (List.prefix_append ..) b hb).height.trans hheight
  exact ⟨hkept, h.chain.named b (mem_committedBlocks_append hb log₂) height hkept⟩

include h₁

/-- The highest committed block extends the one before, and so is at least as high. -/
theorem height_le {height : BlockHeight}
    (hheight : (s₀.replay log₁).committedHeight = some height) :
    ∃ height', (s₀.replay (log₁ ++ log₂)).committedHeight = some height' ∧ height ≤ height' := by
  obtain ⟨p, hp, hheight⟩ := Option.bind_eq_some_iff.mp hheight
  have hmem : p ∈ committedBlocks log₁ := List.mem_of_getLast? (h₁.chain.highest.symm.trans hp)
  obtain ⟨highest, hmem', hhighest⟩ := h.chain.exists_highest (mem_committedBlocks_append hmem log₂)
  obtain ⟨height', hheight'⟩ := h.chain.wf.exists_height (h.chain.stored highest hmem')
  refine ⟨height', by rw [committedHeight, hhighest, Option.bind_some, hheight'], ?_⟩
  have hkept := (h.named hmem hheight).1
  have hext := h.chain.extends_of_mem hhighest (mem_committedBlocks_append hmem log₂)
  by_cases hne : highest = p
  · subst hne
    exact (Option.some.inj (hkept.symm.trans hheight')).le
  · exact (h.chain.heights.lt_of_extends h.chain.wf hext hne hheight' hkept).le

end KeepsChain

/-- In every history that only inserts blocks of the proper height, the committed chain is
append-only exactly if every block to commit extends the one committed before. -/
theorem append_only_iff {appState : AppStateUpdates} {vss : ValidatorSetState}
    {log : List Event} (h : History cr config apps (initial appState vss) log)
    (hinserted : Inserted (initial appState vss) (fun s block _ => s.InsertedAbove block) log) :
    AppendOnly (initial appState vss) log ↔
      ∀ s justify, ActsUpon (initial appState vss) log s justify → s.CommitsAbove justify := by
  constructor
  · intro hlog
    refine KeepsChain.commitsAbove_of_path (history_treePath h) CommittedChain.initial hinserted
      fun log₁ hlog₁ => (hlog.linked log₁ hlog₁).imp fun p c hc => ?_
    obtain ⟨justify, hjustify, rfl⟩ := hc
    exact up_eq_some.mpr ⟨justify, kv_blockJustify_eq_ok.mp hjustify, rfl⟩
  intro hcommits
  have hkeeps : ∀ log', log' <+: log →
      KeepsChain (initial appState vss) log' ((initial appState vss).replay log') := by
    intro log' hlog
    have path := treePath_of_prefix h hlog
    exact .of_path path CommittedChain.initial (hinserted.of_prefix hlog)
      fun s justify hacts => hcommits s justify (hacts.mono hlog)
  refine ⟨fun log₁ log₂ hlog height hheight => ?_, fun log₁ log₂ hlog b hb => ?_,
    fun log₁ log₂ hlog b hb height hheight => ?_, fun log₁ hlog => ?_⟩
  · rw [kv_highestCommittedBlockHeight, Except.ok.injEq] at hheight
    rw [kv_highestCommittedBlockHeight]
    simp only [Except.ok.injEq]
    exact (hkeeps log₁ ((List.prefix_append ..).trans hlog)).height_le (hkeeps _ hlog) hheight
  · have hchain := (hkeeps _ hlog).chain
    obtain ⟨block, hblock, -⟩ :=
      hchain.wf.exists_block (hchain.stored b (mem_committedBlocks_append hb log₂))
    exact ⟨⟨block, hblock⟩, ((hkeeps _ hlog).kept log₁ (List.prefix_append ..) b hb).fields⟩
  · rw [kv_blockHeight, Except.ok.injEq] at hheight
    obtain ⟨hheight', hnamed⟩ := (hkeeps _ hlog).named hb hheight
    exact ⟨congrArg Except.ok hheight', congrArg Except.ok hnamed⟩
  · refine (hkeeps log₁ hlog).chain.linked.imp fun p c hc => ?_
    obtain ⟨justify, hjustify, hp⟩ := up_eq_some.mp hc
    exact ⟨justify, kv_blockJustify_eq_ok.mpr hjustify, hp⟩

end Protocol

/-! ## Two blocks committed one after the other -/

namespace Sample

def block₃ : Block := blockOn 3 (certify 3 block₂.hash .generic) 104

def block₄ : Block := blockOn 4 (certify 4 block₃.hash .generic) 105

/-- The fourth view is led by the other validator. -/
def firstFiveViews : List Input :=
  firstThreeViews ++
  [advance (.phaseCertificate (certify 3 block₂.hash .generic)),
   input 1 (.hotStuff (.proposal ⟨7, 4, block₃⟩)) (3 * 10 ^ 9),
   advance (.phaseCertificate (certify 4 block₃.hash .generic)), propose 5 block₄]

end Sample

namespace Protocol

open BlockTree

/-- Whether a batch commits nothing, or up to a child of the highest committed block. -/
def commitsChild (s : BlockTree) (wb : WriteBatch) : Bool :=
  match WriteBatch.committedBlocks wb |>.getLast?, s .highestCommittedBlock with
  | some target, some highest => s.up target == some highest
  | _, _ => true

theorem commitsAbove_of_checkLog {log : List Event} (h : checkLog commitsChild s₀ log = true) :
    ∀ s justify, ActsUpon s₀ log s justify → s.CommitsAbove justify := by
  rintro s justify ⟨before, fuel, wb, updates, hlog, rfl, hupdate⟩ target highest htarget hhighest
  have hcommits := check_of_checkLog h hlog
  rw [commitsChild, getLast?_committedBlocks hupdate htarget, hhighest] at hcommits
  exact .parent (eq_of_beq hcommits)

theorem app_firstFiveViews : ∀ input ∈ Sample.firstFiveViews, input.app = Sample.app := by
  simp [Sample.firstFiveViews, Sample.firstThreeViews, Sample.advance, Sample.propose, Sample.input]

set_option maxRecDepth 100000 in
theorem checks_firstFiveViews : Replica.checks Sample.crypto (Sample.configuration 3) Sample.tree
    20 (fun _ _ => true) Sample.firstFiveViews (fun log _ =>
      checkLog insertsAbove Sample.tree log && checkLog commitsChild Sample.tree log &&
      committedBlocks log == [Sample.block₀.hash, Sample.block₁.hash]) = true := by
  decide +kernel

theorem append_only_five_views : ∃ log,
    History Sample.crypto (Sample.configuration 3) (· = Sample.app) Sample.tree log ∧
    committedBlocks log = [Sample.block₀.hash, Sample.block₁.hash] ∧
    AppendOnly Sample.tree log := by
  obtain ⟨log, r, history, -, hlog⟩ :=
    exists_history_of_checks app_firstFiveViews checks_firstFiveViews
  simp only [Bool.and_eq_true, beq_iff_eq] at hlog
  obtain ⟨⟨hinserted, hcommits⟩, hblocks⟩ := hlog
  exact ⟨log, history, hblocks, (append_only_iff history (inserted_of_checkLog hinserted)).mpr
    (commitsAbove_of_checkLog hcommits)⟩

end Protocol

/-! ## A network with a block that is too low

Validators 1 and 2 lead the first two views, and validator 3, which runs this code, the next
ones.  The block of validator 2 claims the height of its parent, and validator 3 goes on from
there.  When its own block becomes the next to commit, the low block is left out. -/

namespace Sample

def third : VerifyingKey := 3

def threeValidators : ValidatorSet := ((ValidatorSet.new.put 1 1).put 2 1).put third 5

def threeTree : BlockTree :=
  BlockTree.initial UpdateSet.new ⟨threeValidators, threeValidators, none, true⟩

def certifyAlone (view : ViewNumber) (block : Block) : PhaseCertificate :=
  ⟨7, view, block.hash, .generic,
    [none, none, some (crypto.sign third (phaseVoteBytes 7 view block.hash .generic))]⟩

def low₀ : Block := blockOn 0 .genesisPc 101

def low₁ : Block := blockOn 0 (certifyAlone 0 low₀) 102

def low₂ : Block := blockOn 1 (certifyAlone 1 low₁) 102

def low₃ : Block := blockOn 2 (certifyAlone 2 low₂) 103

def low₄ : Block := blockOn 3 (certifyAlone 3 low₃) 104

def lowChain : List (ViewNumber × Block) := [(0, low₀), (1, low₁), (2, low₂), (3, low₃), (4, low₄)]

/-- Validator 3 signs its votes for these blocks only. -/
def threeCrypto : Crypto := unforgeable fun key bs =>
  key != third || lowChain.any fun (view, block) => bs == phaseVoteBytes 7 view block.hash .generic

def proposal (origin : VerifyingKey) (view : ViewNumber) (block : Block) : Input :=
  input origin (.hotStuff (.proposal ⟨7, view, block⟩)) 0

def lowVote (view : ViewNumber) (block : Block) : PhaseVote :=
  PhaseVote.new threeCrypto third 7 view block.hash .generic

def certified (origin : VerifyingKey) (view : ViewNumber) (block : Block) : Input :=
  input origin (.pacemaker (.advanceView ⟨.phaseCertificate (certifyAlone view block)⟩)) 0

def wait : Input :=
  { now := 0, app, message := none, messageResponses := [], tickResponses := [], choice := 0 }

/-- A view that validator 3 leads until it has a certificate for its block, and the next one. -/
def ownView (view : ViewNumber) (block : Block) : List Input :=
  [proposal third view block, input third (.hotStuff (.phaseVote (lowVote view block))) 0, wait,
   certified third view block, wait]

def lowInputs : List Input :=
  [proposal 1 0 low₀, certified 2 0 low₀, proposal 2 1 low₁,
   input third (.hotStuff (.phaseVote (lowVote 1 low₁))) 0, wait, certified third 1 low₁, wait] ++
  ownView 2 low₂ ++ ownView 3 low₃ ++ ownView 4 low₄

end Sample

namespace Protocol

open BlockTree

/-- Whether the algorithm thread sends `msg`. -/
def sends (log : List Event) (msg : ProgressMessage) : Bool :=
  log.any fun
    | .effect (.act (.send _ (.progress msg'))) => msg' == msg
    | .effect (.act (.broadcast (.progress msg'))) => msg' == msg
    | _ => false

def keepsValidatorSets (log : List Event) : Bool :=
  log.all fun
    | .effect (.write wb) =>
      wb.all fun o => o.key != .committedValidatorSet && o.key != .previousValidatorSet
    | _ => true

/-- Whether validator 3 gets back what it sends only, and skips the low block as it commits. -/
def skipsLow (log : List Event) (r : Replica) : Bool :=
  (Sample.lowInputs.all fun input => input.message.all fun (origin, msg) =>
    origin != Sample.third || sends log msg) &&
  (Sample.lowChain.all fun (view, block) =>
    sends log (.hotStuff (.phaseVote (Sample.lowVote view block)))) &&
  keepsValidatorSets log && committedBlocks log == [Sample.low₀.hash, Sample.low₂.hash] &&
  r.tree (.blockJustify Sample.low₂.hash) == some Sample.low₂.justify

set_option maxRecDepth 100000 in
theorem checks_lowInputs : Replica.checks Sample.threeCrypto (Sample.configuration Sample.third)
    Sample.threeTree 30 (fun _ _ => true) Sample.lowInputs skipsLow = true := by
  decide +kernel

theorem sends_of_sends {log : List Event} {msg : ProgressMessage} (h : sends log msg = true) :
    Sends cr config s₀ log msg := by
  obtain ⟨e, he, hmsg⟩ := List.any_eq_true.mp h
  split at hmsg
  · obtain rfl := eq_of_beq hmsg
    exact .send he
  · obtain rfl := eq_of_beq hmsg
    exact .broadcast he
  · cases hmsg

theorem held_of_keepsValidatorSets {log : List Event} (h : keepsValidatorSets log = true)
    {vs : ValidatorSet} (hvs : Held s₀ log vs) :
    s₀ .committedValidatorSet = some vs ∨ s₀ .previousValidatorSet = some vs := by
  have hkeys : ∀ wb, .effect (.write wb) ∈ log → ∀ o ∈ wb,
      o.key ≠ .committedValidatorSet ∧ o.key ≠ .previousValidatorSet := by
    intro wb hwb o ho
    have hall := List.all_eq_true.mp (List.all_eq_true.mp h _ hwb) o ho
    simpa using hall
  obtain ⟨before, hbefore, hheld⟩ := hvs
  rwa [replay_of_notMem fun wb hwb o ho hk => (hkeys wb (hbefore.subset hwb) o ho).1 hk.symm,
    replay_of_notMem fun wb hwb o ho hk => (hkeys wb (hbefore.subset hwb) o ho).2 hk.symm] at hheld

theorem app_lowInputs : ∀ input ∈ Sample.lowInputs, input.app = Sample.app := by
  simp [Sample.lowInputs, Sample.ownView, Sample.proposal, Sample.certified, Sample.wait,
    Sample.input]

theorem held_threeTree {vs : ValidatorSet} {log : List Event}
    (hkeeps : keepsValidatorSets log = true) (h : Held Sample.threeTree log vs) :
    vs = Sample.threeValidators := by
  have hcommitted : Sample.threeTree .committedValidatorSet = some Sample.threeValidators := rfl
  have hprevious : Sample.threeTree .previousValidatorSet = some Sample.threeValidators := rfl
  rcases held_of_keepsValidatorSets hkeeps h with h | h
  · exact Option.some.inj (h.symm.trans hcommitted)
  · exact Option.some.inj (h.symm.trans hprevious)

/-- What verifies in the name of validator 3 is one of its votes. -/
theorem unforgeable_third {log : List Event}
    (hvotes : ∀ vote ∈ Sample.lowChain, sends log
      (.hotStuff (.phaseVote (Sample.lowVote vote.1 vote.2))) = true) :
    Unforgeable Sample.threeCrypto (fun v => Signs Sample.threeCrypto (Sample.configuration v)
      Sample.threeTree log) Sample.third := by
  intro message signature h
  have hsigned := (Bool.and_eq_true_iff.mp h).1
  simp only [bne_self_eq_false, Bool.false_or, List.any_eq_true, beq_iff_eq] at hsigned
  obtain ⟨vote, hvote, rfl⟩ := hsigned
  exact ⟨_, _, sends_of_sends (hvotes vote hvote), rfl, rfl⟩

/-- Validator 3 alone makes a network with the others. -/
theorem exists_network_lowInputs : ∃ log,
    Network Sample.threeCrypto (· = Sample.app) Sample.threeTree {Sample.third}
      Sample.configuration (fun _ => log) ∧
    committedBlocks log = [Sample.low₀.hash, Sample.low₂.hash] ∧
    Sample.threeTree.replay log (.blockJustify Sample.low₂.hash) = some Sample.low₂.justify := by
  obtain ⟨log, r, run, hlog⟩ := @exists_runUnder_of_checks_log _ _ (· = Sample.app) _
    (fun log _ _ input _ => ∀ origin ∈ ({Sample.third} : Finset VerifyingKey), ∀ msg,
      input.message = some (origin, msg) → Sends Sample.threeCrypto
        (Sample.configuration origin) Sample.threeTree log msg) _ _ _ _ app_lowInputs
    (fun log r' hskips _ input hinput _ _ => by
      intro origin horigin msg hmsg
      obtain rfl := Finset.mem_singleton.mp horigin
      simp only [skipsLow, Bool.and_eq_true, List.all_eq_true] at hskips
      have hsent := hskips.1.1.1.1 input hinput
      rw [hmsg] at hsent
      exact sends_of_sends hsent) checks_lowInputs
  simp only [skipsLow, Bool.and_eq_true, List.all_eq_true, beq_iff_eq] at hlog
  obtain ⟨⟨⟨⟨-, hvotes⟩, hkeeps⟩, hblocks⟩, hjustify⟩ := hlog
  rw [run.tree_eq] at hjustify
  refine ⟨log, ⟨fun _ _ => rfl, fun _ _ _ _ => rfl, fun v hv => ?_, fun v hv => ?_,
    fun v _ vs hvs => ?_⟩, hblocks, hjustify⟩
  · obtain rfl := Finset.mem_singleton.mp hv
    exact run.history (rfl : Sample.app = Sample.app) fun _ _ hnone _ _ _ hmsg => by
      rw [hnone] at hmsg
      cases hmsg
  · obtain rfl := Finset.mem_singleton.mp hv
    exact unforgeable_third hvotes
  · rw [held_threeTree hkeeps hvs]
    decide +kernel

theorem committed_chain_skips_block : ¬∀ (cr : Crypto) (apps : App → Prop)
    (appState : AppStateUpdates) (vss : ValidatorSetState) (honest : Finset VerifyingKey)
    (config : VerifyingKey → Configuration) (log : VerifyingKey → List Event),
    Network cr apps (initial appState vss) honest config log →
    ∀ v ∈ honest, AppendOnly (initial appState vss) (log v) := by
  intro h
  obtain ⟨log, network, hblocks, hjustify⟩ := exists_network_lowInputs
  have hlinked := (h _ _ _ _ _ _ _ network Sample.third
    (Finset.mem_singleton_self _)).linked log List.prefix_rfl
  rw [hblocks] at hlinked
  obtain ⟨justify, hlow, hblock⟩ := hlinked.rel_head? rfl
  obtain rfl := Option.some.inj ((kv_blockJustify_eq_ok.mp hlow).symm.trans hjustify)
  revert hblock
  decide +kernel

end Protocol
end HotStuffRs
