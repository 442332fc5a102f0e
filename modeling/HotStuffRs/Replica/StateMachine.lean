import HotStuffRs.BlockTree.Executed
import HotStuffRs.Replica.Agreement
import HotStuffRs.Replica.Emits

/-
The replicated state machine.

An application specifies a state machine, and the replicas replicate it: each has at all times the
app state that comes from executing the blocks that it has committed, and whenever its App is asked
about a block, it is shown the state that the blocks below leave behind.
-/

namespace HotStuffRs

open Kv Lts

/-- The apps are all the same state machine: what a block does with the app state that they are
shown is as `transition` says. -/
def Deterministic (apps : App → Prop) (transition : Block → AppState → Option AppStateUpdates) :
    Prop :=
  ∀ app, apps app → ∀ block view appStateUpdates validatorSetUpdates,
    app.Accepts block view appStateUpdates validatorSetUpdates →
      appStateUpdates = transition block view.appState

namespace Protocol

open BlockTree Forest

variable {cr : Crypto} {apps : App → Prop} {s₀ : BlockTree} {honest : Finset VerifyingKey}
  {config : VerifyingKey → Configuration} {log : VerifyingKey → List Event}

/-- The hash of an inserted block determines it. -/
theorem eq_of_hash (hfree : Block.CollisionFree cr (insertedBlocks cr config s₀ honest log))
    (hbound : Block.DataBound (insertedBlocks cr config s₀ honest log)) {block block' : Block}
    (hblock : block ∈ insertedBlocks cr config s₀ honest log)
    (hblock' : block' ∈ insertedBlocks cr config s₀ honest log) (hhash : block.hash = block'.hash) :
    block = block' := by
  have hhashed : ∀ block ∈ insertedBlocks cr config s₀ honest log,
      Block.hashOf cr block.height block.justify block.dataHash = .ok block.hash := by
    rintro block ⟨u, -, before, -, -, -, hcorrect, -⟩
    exact Block.hashOf_of_isCorrect hcorrect
  have halike := hashedAlike_of_hash hfree hhashed hblock hblock' hhash
  have hdata := hbound block hblock block' hblock' halike.dataHash
  obtain ⟨height, hash, justify, dataHash, data⟩ := block
  obtain ⟨rfl, rfl, rfl⟩ := halike
  obtain rfl := hhash
  obtain rfl := hdata
  rfl

open Classical in
/-- The transition of the inserted block of a hash. -/
noncomputable def transitionOf (transition : Block → AppState → Option AppStateUpdates)
    (blocks : Set Block) (b : CryptoHash) : AppState → Option AppStateUpdates :=
  if h : ∃ block ∈ blocks, block.hash = b then transition h.choose else fun _ => none

section

variable {transition : Block → AppState → Option AppStateUpdates} {blocks : Set Block}

theorem transitionOf_hash
    (hhash : ∀ block ∈ blocks, ∀ block' ∈ blocks, block.hash = block'.hash → block = block')
    {block : Block} (hblock : block ∈ blocks) :
    transitionOf transition blocks block.hash = transition block := by
  have hex : ∃ block' ∈ blocks, block'.hash = block.hash := ⟨block, hblock, rfl⟩
  rw [transitionOf, dif_pos hex,
    hhash _ hex.choose_spec.1 block hblock hex.choose_spec.2]

theorem execute_hashes
    (hhash : ∀ block ∈ blocks, ∀ block' ∈ blocks, block.hash = block'.hash → block = block')
    {bs : List Block} (hbs : ∀ block ∈ bs, block ∈ blocks) (appState : AppState) :
    execute (transitionOf transition blocks) appState (bs.map Block.hash) =
      execute transition appState bs := by
  rw [execute, Overlay.run_map]
  refine Overlay.run_congr fun block hblock appState => ?_
  rw [transitionOf_hash hhash (hbs block hblock)]

end

/-! ## What a network executes -/

section

variable {appState : AppStateUpdates} {vss : ValidatorSetState}
  (h : Network cr apps (initial appState vss) honest config log)
  (hcareful : Careful cr config (initial appState vss) honest log)
  (hfixed : FixedValidators apps) (hheight : vss.updateHeight = none)
  {transition : Block → AppState → Option AppStateUpdates}
  (hdeterministic : Deterministic apps transition)
  (hbound : Block.DataBound (insertedBlocks cr config (initial appState vss) honest log))
  {v : VerifyingKey} (hv : v ∈ honest)
include h hcareful hfixed hheight hdeterministic hbound hv

theorem executed_of_network {log' : List Event} (hlog : log' <+: log v) :
    Executed (transitionOf transition (insertedBlocks cr config (initial appState vss) honest log))
      (fun key => initial appState vss (.committedAppState key))
      ((initial appState vss).replay log') (committedBlocks log') := by
  induction log' using List.reverseRecOn with
  | nil => exact .initial
  | append_singleton log' e ih =>
    have hprefix : log' <+: log v := (List.prefix_append ..).trans hlog
    have hexecuted := ih hprefix
    have hindexed := indexedChain_of_network h hcareful hfixed hheight hv hprefix
    rw [replay_snoc, committedBlocks_snoc]
    cases e with
    | crash => simpa [Event.committedBlocks] using hexecuted
    | effect e =>
      cases e with
      | act a => simpa [Event.committedBlocks] using hexecuted
      | write wb =>
        obtain ⟨last, -, hemits⟩ := emitsAll_of_history (h.history' hv) log' _ hlog
        cases hemits with
        | @insert block app fuel view appStateUpdates validatorSetUpdates hcorrect hsafe happ hview
            haccepts =>
          have hinserts : Inserts cr (config v) (initial appState vss) (log v) block :=
            ⟨log', appStateUpdates, validatorSetUpdates, hlog, hcorrect, hsafe⟩
          rw [Event.committedBlocks, committedBlocks_insertBatch, List.append_nil]
          refine hexecuted.insert hindexed ?_ (hindexed.wf.parent_of_safeBlock hsafe) hview ?_
          · exact hcareful.above v hv log' block appStateUpdates validatorSetUpdates hlog
          · rw [transitionOf_hash (fun _ hb _ => eq_of_hash hcareful.hash hbound hb)
              ⟨v, hv, hinserts⟩]
            exact hdeterministic app happ block view _ _ haccepts
        | @update justify fuel wb updates hupdate =>
          have habove := commitsAbove_of_network h hcareful hfixed hheight hv hlog _ justify
            ⟨log', fuel, wb, updates, List.prefix_rfl, rfl, hupdate⟩
          exact hexecuted.update hindexed habove hupdate
        | note hv =>
          rw [Event.committedBlocks, committedBlocks_note hv, List.append_nil]
          refine hexecuted.congr fun v' hv' => ?_
          rcases hv' with ⟨b, hb⟩ | ⟨key, rfl⟩
          · exact block_note hv hb
          · exact write_note hv (by simp [IsNote])

end

/-! ## What the App sees -/

/-- The App is asked whether `block` is valid, or has produced it. -/
def Asked (cr : Crypto) (config : Configuration) (apps : App → Prop) (s : BlockTree)
    (block : Block) : Prop :=
  (block.isCorrect cr s = .ok true ∧ s.safeBlock block config.chainId = .ok true) ∨
    ∃ view, s.Produces cr apps view block

theorem signed_of_lt {vs : ValidatorSet} {pc q : PhaseCertificate}
    (hsigned : pc = .genesisPc ∨ pc.isCorrectlySigned cr vs = .ok true) (hlt : q.view < pc.view) :
    pc.isCorrectlySigned cr vs = .ok true := by
  rcases hsigned with rfl | hsigned
  · exact absurd hlt (Fin.not_lt_zero _)
  · exact hsigned

section

variable {appState : AppStateUpdates} {vss : ValidatorSetState}
  (h : Network cr apps (initial appState vss) honest config log)
  (hcareful : Careful cr config (initial appState vss) honest log)
  (hfixed : FixedValidators apps) (hheight : vss.updateHeight = none)
  {v : VerifyingKey} (hv : v ∈ honest) {log' : List Event} (hlog : log' <+: log v)
include h hcareful hfixed hheight hv hlog

/-- A certificate that is safe is about a block above the highest committed one. -/
theorem extends_of_safePc {pc : PhaseCertificate}
    (hcorrect : pc.isCorrect cr ((initial appState vss).replay log') = .ok true)
    (hsafe : ((initial appState vss).replay log').safePc pc (config v).chainId = .ok true)
    {b : CryptoHash} (hb : (initial appState vss).replay log' .highestCommittedBlock = some b) :
    Extends (certificatesOf cr config (initial appState vss) honest log
      vss.committedValidatorSet).up pc.block b := by
  have hsettled := settled_of_network h hcareful hfixed hheight hv hlog
  have hrules := rules_of_network h hcareful hfixed hheight hv
  obtain ⟨st, hvotes⟩ := votesLocked_of_network h hcareful hfixed hheight hv hlog
  obtain ⟨q, q', q'', hchain, rfl, hheld, -⟩ := hvotes.decided b hb
  have path := treePath_of_prefix (h.history' hv) hlog
  have hsome := path_lockedPc path (congrArg Option.isSome initial_lockedPc)
  obtain ⟨locked, hlocked⟩ := Option.isSome_iff_exists.mp hsome
  have hview : q.view < locked.view := by
    have hnext : q'.view.val = q.view.val + 1 := hchain.view
    have hle : q'.view.val ≤ locked.view.val := (hheld locked hlocked).view_le
    exact Fin.lt_def.mpr (by omega)
  obtain ⟨-, -, hrule, -⟩ := (safePc_iff hlocked).mp hsafe
  rcases hrule with hlt | hnear
  · have hvalid := signed_of_lt (hsettled.signed_of_isCorrect hcorrect) (hview.trans hlt)
    exact hrules.extends_of_threeChain hchain _ pc hvalid rfl (hview.trans hlt).le
  · have hvalid := signed_of_lt (hvotes.signed locked (.lockedPc hlocked)) hview
    exact (hsettled.extends_of_extends hnear.extends).trans
      (hrules.extends_of_threeChain hchain _ locked hvalid rfl hview.le)

/-- So is the highest PC. -/
theorem extends_of_highestPc {pc : PhaseCertificate}
    (hpc : (initial appState vss).replay log' .highestPc = some pc) {b : CryptoHash}
    (hb : (initial appState vss).replay log' .highestCommittedBlock = some b) :
    Extends (certificatesOf cr config (initial appState vss) honest log
      vss.committedValidatorSet).up pc.block b := by
  obtain ⟨st, hvotes⟩ := votesLocked_of_network h hcareful hfixed hheight hv hlog
  obtain ⟨q, q', q'', hchain, rfl, -, hhighest⟩ := hvotes.decided b hb
  have hview : q.view < pc.view := by
    have hnext : q'.view.val = q.view.val + 1 := hchain.view
    have hnext' : q''.view.val = q'.view.val + 1 := hchain.view'
    have hle : q''.view.val ≤ pc.view.val := hhighest pc hpc
    exact Fin.lt_def.mpr (by omega)
  have hvalid := signed_of_lt (hvotes.signed pc (.highestPc hpc)) hview
  exact (rules_of_network h hcareful hfixed hheight hv).extends_of_threeChain hchain _ pc hvalid rfl
    hview.le

/-- In either case there is a chain of blocks from genesis on, which goes on where the committed
blocks end and leads to the parent. -/
theorem exists_chain {pc : PhaseCertificate}
    (hstored : pc = .genesisPc ∨ ((initial appState vss).replay log').Stored pc.block)
    (hext : ∀ b, (initial appState vss).replay log' .highestCommittedBlock = some b →
      Extends (certificatesOf cr config (initial appState vss) honest log
        vss.committedValidatorSet).up pc.block b) :
    ∃ us, ((0 :: (committedBlocks log' ++ us)).IsChain fun p c =>
        ((initial appState vss).replay log').up c = some p) ∧
      pc.block = (committedBlocks log' ++ us).getLastD 0 := by
  have hsettled := settled_of_network h hcareful hfixed hheight hv hlog
  have hindexed := indexedChain_of_network h hcareful hfixed hheight hv hlog
  have hroot := (justifies h hcareful hv).root
  have hlast : Extends ((initial appState vss).replay log').up pc.block
      ((committedBlocks log').getLastD 0) := by
    rcases List.eq_nil_or_concat (committedBlocks log') with hnil | ⟨cs, b, hb⟩
    · rw [hnil]
      rcases hstored with rfl | hstored
      · exact .refl _
      · exact hsettled.extends_genesis hstored
    · rw [List.concat_eq_append] at hb
      have hhighest : (initial appState vss).replay log' .highestCommittedBlock = some b := by
        rw [hindexed.highest, hb, List.getLast?_concat]
      have hext := hext b hhighest
      rw [hb, List.getLastD_concat]
      rcases hstored with rfl | hstored
      · -- Nothing is below the genesis placeholder, which is not committed.
        rcases Extends.iff_parent.mp hext with rfl | ⟨p, hp, -⟩
        · exact .refl _
        · obtain ⟨j, hj, -⟩ := Chained.Certificates.up_eq_some.mp hp
          cases hroot.symm.trans hj
      · exact hsettled.extends_of_stored hroot hstored hext
  obtain ⟨us, hchain, hus⟩ := Extends.exists_isChain hlast hindexed.isChain
  exact ⟨us, hchain, hus.symm⟩

/-- So the App is asked about blocks on top of the committed ones only. -/
theorem exists_chain_of_asked {block : Block}
    (hasked : Asked cr (config v) apps ((initial appState vss).replay log') block) :
    ∃ us, ((0 :: (committedBlocks log' ++ us)).IsChain fun p c =>
        ((initial appState vss).replay log').up c = some p) ∧
      block.justify.block = (committedBlocks log' ++ us).getLastD 0 ∧
      (block.justify = .genesisPc ∨ ((initial appState vss).replay log').Stored block.justify.block) := by
  have hsettled := settled_of_network h hcareful hfixed hheight hv hlog
  rcases hasked with ⟨hcorrect, hsafe⟩ | ⟨view, hproduces⟩
  · have hparent := hsettled.wf.parent_of_safeBlock hsafe
    obtain ⟨us, hchain, hlast⟩ := exists_chain h hcareful hfixed hheight hv hlog hparent fun b =>
      extends_of_safePc h hcareful hfixed hheight hv hlog (justify_isCorrect hcorrect)
        (safePc_of_safeBlock hsafe).1
    exact ⟨us, hchain, hlast, hparent⟩
  · obtain ⟨hhighest, -, hchild, -⟩ := hproduces
    have hparent : block.justify = .genesisPc ∨
        ((initial appState vss).replay log').Stored block.justify.block := by
      by_cases hgenesis : block.justify = .genesisPc
      · exact .inl hgenesis
      · have hnot : ¬block.justify.isGenesisPc = true :=
          fun heq => hgenesis (PhaseCertificate.isGenesisPc_iff.mp heq)
        rw [childHeight, if_neg hnot] at hchild
        obtain ⟨height, hheight, -⟩ := Option.map_eq_some_iff.mp hchild
        exact .inr (hsettled.wf.stored_of_height hheight)
    obtain ⟨us, hchain, hlast⟩ := exists_chain h hcareful hfixed hheight hv hlog hparent fun b =>
      extends_of_highestPc h hcareful hfixed hheight hv hlog hhighest
    exact ⟨us, hchain, hlast, hparent⟩

end

/-! ## The results -/

section

variable {appState : AppStateUpdates} {vss : ValidatorSetState}
  (h : Network cr apps (initial appState vss) honest config log)
  (hcareful : Careful cr config (initial appState vss) honest log)
include h hcareful

omit hcareful in
theorem exists_inserted_blocks {v : VerifyingKey} (hv : v ∈ honest) {log' : List Event}
    (hlog : log' <+: log v) {bs : List CryptoHash}
    (hbs : ∀ b ∈ bs, ((initial appState vss).replay log').Stored b) :
    ∃ blocks : List Block, blocks.map Block.hash = bs ∧
      ∀ block ∈ blocks, Inserts cr (config v) (initial appState vss) log' block := by
  have path := treePath_of_prefix (h.history' hv) hlog
  induction bs with
  | nil => exact ⟨[], rfl, nofun⟩
  | cons b bs ih =>
    obtain ⟨blocks, hmap, hinserts⟩ := ih fun b' hb' => hbs b' (List.mem_cons_of_mem _ hb')
    obtain ⟨block, hblock, hhash⟩ := inserts_of_stored path (hbs b List.mem_cons_self)
    exact ⟨block :: blocks, by rw [List.map_cons, hhash, hmap],
      List.forall_mem_cons.mpr ⟨hblock, hinserts⟩⟩

variable (hfixed : FixedValidators apps) (hheight : vss.updateHeight = none)
  {transition : Block → AppState → Option AppStateUpdates}
  (hdeterministic : Deterministic apps transition)
  (hbound : Block.DataBound (insertedBlocks cr config (initial appState vss) honest log))
include hfixed hheight hdeterministic hbound

/-- The committed app state of an honest replica is what comes from executing the blocks that it
has committed, in their order, on the initial app state. -/
theorem committed_state_is_executed : ∀ v ∈ honest, ∀ log', log' <+: log v →
    ∃ blocks : List Block, blocks.map Block.hash = committedBlocks log' ∧
      (∀ block ∈ blocks, Inserts cr (config v) (initial appState vss) log' block) ∧
      ((initial appState vss).replay log').kv.committedAppState =
        execute transition (initial appState vss).kv.committedAppState blocks := by
  intro v hv log' hlog
  have hindexed := indexedChain_of_network h hcareful hfixed hheight hv hlog
  obtain ⟨blocks, hmap, hinserts⟩ := exists_inserted_blocks h hv hlog hindexed.stored
  refine ⟨blocks, hmap, hinserts, ?_⟩
  have hexecuted := executed_of_network h hcareful hfixed hheight hdeterministic hbound hv hlog
  rw [← execute_hashes (fun _ hb _ => eq_of_hash hcareful.hash hbound hb)
    fun block hblock => ⟨v, hv, (hinserts block hblock).mono hlog⟩, hmap]
  funext key
  exact hexecuted.committed key

/-- Two honest replicas whose highest committed blocks have the same height have the same committed
app state, at whatever points of their runs. -/
theorem same_state_at_same_height : ∀ v ∈ honest, ∀ v' ∈ honest, ∀ log₁ log₂, log₁ <+: log v →
    log₂ <+: log v' →
    ((initial appState vss).replay log₁).kv.highestCommittedBlockHeight =
      ((initial appState vss).replay log₂).kv.highestCommittedBlockHeight →
    ((initial appState vss).replay log₁).kv.committedAppState =
      ((initial appState vss).replay log₂).kv.committedAppState := by
  intro v hv v' hv' log₁ log₂ hlog₁ hlog₂ hsame
  have hindexed₁ := indexedChain_of_network h hcareful hfixed hheight hv hlog₁
  have hindexed₂ := indexedChain_of_network h hcareful hfixed hheight hv' hlog₂
  rw [kv_highestCommittedBlockHeight, kv_highestCommittedBlockHeight, Except.ok.injEq] at hsame
  have hlength : (committedBlocks log₁).length = (committedBlocks log₂).length := by
    rw [hindexed₁.length_eq_committedHeight, hindexed₂.length_eq_committedHeight, hsame]
  have hblocks : committedBlocks log₁ = committedBlocks log₂ := by
    have hprefix₁ := committedBlocks_of_isPrefix hlog₁
    have hprefix₂ := committedBlocks_of_isPrefix hlog₂
    rcases isPrefix_of_network h hcareful hfixed hheight hv hv' with hle | hle
    · exact (List.prefix_of_prefix_length_le (hprefix₁.trans hle) hprefix₂ hlength.le).eq_of_length
        hlength
    · exact (List.prefix_of_prefix_length_le hprefix₁ (hprefix₂.trans hle) hlength.le).eq_of_length
        hlength
  have hexecuted₁ := executed_of_network h hcareful hfixed hheight hdeterministic hbound hv hlog₁
  have hexecuted₂ := executed_of_network h hcareful hfixed hheight hdeterministic hbound hv' hlog₂
  funext key
  calc ((initial appState vss).replay log₁).kv.committedAppState key
      = execute _ _ (committedBlocks log₁) key := hexecuted₁.committed key
    _ = execute _ _ (committedBlocks log₂) key := by rw [hblocks]
    _ = ((initial appState vss).replay log₂).kv.committedAppState key :=
        (hexecuted₂.committed key).symm

/-- Whenever the App of an honest replica is asked about a block, the view of it that it is given
shows the app state after the chain of blocks from genesis to the parent, which goes through all
the blocks that the replica has committed. -/
theorem app_sees_parent_state : ∀ v ∈ honest, ∀ log', log' <+: log v → ∀ block,
    Asked cr (config v) apps ((initial appState vss).replay log') block →
    ∃ blocks : List Block, committedBlocks log' <+: blocks.map Block.hash ∧
      ((0 :: blocks.map Block.hash).IsChain fun earlier later =>
        ∃ justify, ((initial appState vss).replay log').kv.blockJustify later = .ok justify ∧
          justify.block = earlier) ∧
      (blocks.map Block.hash).getLast? = block.parent? ∧
      (∀ block ∈ blocks, Inserts cr (config v) (initial appState vss) log' block) ∧
      ∃ view, Result.Eventually
        (fun fuel => ((initial appState vss).replay log').appView fuel block.parent?) view ∧
        view.appState = execute transition (initial appState vss).kv.committedAppState blocks := by
  intro v hv log' hlog block hasked
  have hindexed := indexedChain_of_network h hcareful hfixed hheight hv hlog
  obtain ⟨us, hchain, hlast, hparent⟩ := exists_chain_of_asked h hcareful hfixed hheight hv hlog hasked
  have hstored : ∀ b ∈ committedBlocks log' ++ us, ((initial appState vss).replay log').Stored b := by
    intro b hb
    obtain ⟨p, hp⟩ := Extends.exists_parent_of_mem hchain hb
    exact .of_up hp
  obtain ⟨blocks, hmap, hinserts⟩ := exists_inserted_blocks h hv hlog hstored
  have hexecuted := executed_of_network h hcareful hfixed hheight hdeterministic hbound hv hlog
  have hparent' := hindexed.parent?_eq hchain hparent hlast
  obtain ⟨view, hview⟩ := hindexed.eventually_appView hchain
  obtain ⟨fuel, hfuel⟩ := hview
  refine ⟨blocks, ?_, ?_, ?_, hinserts, view, ?_, ?_⟩
  · rw [hmap]
    exact List.prefix_append ..
  · rw [hmap]
    refine hchain.imp fun p c hc => ?_
    obtain ⟨justify, hjustify, hp⟩ := up_eq_some.mp hc
    exact ⟨justify, kv_blockJustify_eq_ok.mpr hjustify, hp⟩
  · rw [hmap, hparent']
  · rw [hparent']
    exact ⟨fuel, hfuel⟩
  · rw [hexecuted.appState_of_appView hindexed hchain (hfuel fuel le_rfl), ← hmap]
    exact execute_hashes (fun _ hb _ => eq_of_hash hcareful.hash hbound hb)
      (fun block hblock => ⟨v, hv, (hinserts block hblock).mono hlog⟩) _

end

end Protocol

/-! ## A state machine that two replicas run

It appends the data hash of each block to the value of one key. -/

namespace Sample

def appendDataHash (block : Block) (appState : AppState) : Option AppStateUpdates :=
  some (UpdateSet.new.insert [0] ((appState [0]).getD [] ++ [Fin.ofNat _ block.dataHash.val]))

def tally : App where
  produceBlock := app.produceBlock
  validateBlock block view := .valid (appendDataHash block view.appState) none
  validateBlockForSync block view := .valid (appendDataHash block view.appState) none

def tallies (inputs : List Input) : List Input := inputs.map fun input => { input with app := tally }

def tallyLeaderInputs : List Input := tallies agreedLeaderInputs

def tallyFollowerInputs : List Input :=
  tallies (agreedFollowerInputs ++ [showsBlock 4 block₃, propose 5 block₄])

theorem app_tallies {inputs : List Input} : ∀ input ∈ tallies inputs, input.app = tally := by
  simp [tallies]

end Sample

namespace Protocol

open BlockTree

/-- Whether two blocks are committed, and two data hashes are in the app state. -/
def tallied (log : List Event) : Bool :=
  committedBlocks log == [Sample.block₀.hash, Sample.block₁.hash] &&
    (Sample.tree.replay log).committedHeight == some 1 &&
    (Sample.tree.replay log).kv.committedAppState [0] == some [101, 102]

/-- Whether the App may be asked about the last block. -/
def asksLast (s : BlockTree) : Bool :=
  (match Sample.block₄.isCorrect Sample.agreedCrypto s with
    | .ok correct => correct
    | .error _ => false) &&
  (match s.safeBlock Sample.block₄ 7 with
    | .ok safe => safe
    | .error _ => false)

set_option maxRecDepth 100000 in
theorem checks_tallyLeader : Replica.checks Sample.agreedCrypto
    (Sample.configuration Sample.leader) Sample.tree 30 (fun _ _ => true) Sample.tallyLeaderInputs
    (fun log _ => agreedLeads Sample.tallyLeaderInputs Sample.tallyFollowerInputs log &&
      (tallied log && asksLast (Sample.tree.replay log))) = true := by
  decide +kernel

set_option maxRecDepth 100000 in
theorem checks_tallyFollower : Replica.checks Sample.agreedCrypto
    (Sample.configuration Sample.follower) Sample.tree 30 (fun _ _ => true)
    Sample.tallyFollowerInputs (fun log _ => agrees log && tallied log) = true := by
  decide +kernel

theorem fixedValidators_tally : FixedValidators (· = Sample.tally) := by
  rintro app rfl block appStateUpdates validatorSetUpdates ⟨view, hvalid | hvalid⟩
  · exact (ValidateBlockResponse.valid.inj hvalid).2.symm
  · exact (ValidateBlockResponse.valid.inj hvalid).2.symm

theorem deterministic_tally : Deterministic (· = Sample.tally) Sample.appendDataHash := by
  rintro app rfl block view appStateUpdates validatorSetUpdates (hvalid | hvalid)
  · exact (ValidateBlockResponse.valid.inj hvalid).1.symm
  · exact (ValidateBlockResponse.valid.inj hvalid).1.symm

theorem exists_tally_network : ∃ log,
    Network Sample.agreedCrypto (· = Sample.tally) Sample.tree {Sample.leader, Sample.follower}
      Sample.configuration log ∧
    Careful Sample.agreedCrypto Sample.configuration Sample.tree {Sample.leader, Sample.follower}
      log ∧
    Block.DataBound (insertedBlocks Sample.agreedCrypto Sample.configuration Sample.tree
      {Sample.leader, Sample.follower} log) ∧
    (tallied (log Sample.leader) && asksLast (Sample.tree.replay (log Sample.leader))) = true ∧
    tallied (log Sample.follower) = true :=
  @exists_network_of_checks _ _ _
    (fun log => tallied log && asksLast (Sample.tree.replay log)) tallied Sample.app_tallies
    Sample.app_tallies checks_tallyLeader checks_tallyFollower

theorem committed_state_of_two_blocks : ∃ blocks : List Block,
    blocks.map Block.hash = [Sample.block₀.hash, Sample.block₁.hash] ∧
    execute Sample.appendDataHash Sample.tree.kv.committedAppState blocks [0] = some [101, 102] := by
  obtain ⟨log, network, hcareful, hbound, htallied, -⟩ := exists_tally_network
  simp only [tallied, Bool.and_eq_true, beq_iff_eq] at htallied
  obtain ⟨blocks, hmap, -, hstate⟩ := committed_state_is_executed network hcareful
    fixedValidators_tally rfl deterministic_tally hbound Sample.leader (by simp) _ List.prefix_rfl
  exact ⟨blocks, hmap.trans htallied.1.1.1, (congrFun hstate [0]).symm.trans htallied.1.2⟩

theorem same_state_of_leader_and_follower : ∃ log : VerifyingKey → List Event,
    committedBlocks (log Sample.leader) = [Sample.block₀.hash, Sample.block₁.hash] ∧
    (Sample.tree.replay (log Sample.leader)).kv.committedAppState =
      (Sample.tree.replay (log Sample.follower)).kv.committedAppState := by
  obtain ⟨log, network, hcareful, hbound, hleader, hfollower⟩ := exists_tally_network
  simp only [tallied, Bool.and_eq_true, beq_iff_eq] at hleader hfollower
  refine ⟨log, hleader.1.1.1, same_state_at_same_height network hcareful fixedValidators_tally rfl
    deterministic_tally hbound Sample.leader (by simp) Sample.follower (by simp) _ _ List.prefix_rfl
    List.prefix_rfl ?_⟩
  rw [kv_highestCommittedBlockHeight, kv_highestCommittedBlockHeight]
  exact congrArg Except.ok (hleader.1.1.2.trans hfollower.1.2.symm)

theorem app_sees_state_of_four_blocks : ∃ (s : BlockTree) (blocks : List Block),
    [Sample.block₀.hash, Sample.block₁.hash] <+: blocks.map Block.hash ∧
    (blocks.map Block.hash).getLast? = Sample.block₄.parent? ∧
    ∃ view, Result.Eventually (fun fuel => s.appView fuel Sample.block₄.parent?) view ∧
      view.appState = execute Sample.appendDataHash Sample.tree.kv.committedAppState blocks := by
  obtain ⟨log, network, hcareful, hbound, hleader, -⟩ := exists_tally_network
  simp only [tallied, asksLast, Bool.and_eq_true, beq_iff_eq] at hleader
  obtain ⟨⟨⟨hblocks, -⟩, -⟩, hcorrect, hsafe⟩ := hleader
  have hasked : Asked Sample.agreedCrypto (Sample.configuration Sample.leader) (· = Sample.tally)
      (Sample.tree.replay (log Sample.leader)) Sample.block₄ := by
    refine .inl ⟨?_, ?_⟩
    · split at hcorrect
      · rename_i correct hok
        rw [← hcorrect]
        exact hok
      · cases hcorrect
    · split at hsafe
      · rename_i safe hok
        rw [← hsafe]
        exact hok
      · cases hsafe
  obtain ⟨blocks, hprefix, -, hlast, -, view, hview, hstate⟩ := app_sees_parent_state network hcareful
    fixedValidators_tally rfl deterministic_tally hbound Sample.leader (by simp) _ List.prefix_rfl
    Sample.block₄ hasked
  exact ⟨_, blocks, hblocks ▸ hprefix, hlast, view, hview, hstate⟩

end Protocol
end HotStuffRs
