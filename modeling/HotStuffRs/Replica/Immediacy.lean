import HotStuffRs.BlockTree.Immediacy
import HotStuffRs.Replica.Under

/-
Immediate validator set updates, over whole runs.

`insert` and the `update` that has to follow it are two writes.  Between them a block may
hang below one whose validator set updates are still pending, and nothing acts upon its
justify after a restart.
-/

namespace HotStuffRs

open Kv Kv.Process

/-- Wherever a block is built upon one with validator set updates, these are committed. -/
def BlockTree.UpdatesAreImmediate (s : BlockTree) : Prop :=
  ∀ c justify status, s.kv.blockJustify c = .ok justify →
    s.kv.validatorSetUpdatesStatus justify.block = .ok status → status.containsUpdates = true →
    status = .committed ∧ ∃ height committed, s.kv.blockHeight justify.block = .ok (some height) ∧
      s.kv.highestCommittedBlockHeight = .ok (some committed) ∧ height ≤ committed

theorem BlockTree.Immediate.updatesAreImmediate {s : BlockTree} (h : s.Immediate) :
    s.UpdatesAreImmediate := by
  intro c justify status hjustify hstatus hupdates
  have hup : s.up c = some justify.block :=
    up_eq_some.mpr ⟨justify, kv_blockJustify_eq_ok.mp hjustify, rfl⟩
  obtain ⟨hcommitted, height, committed, hheight, hhighest, hle⟩ :=
    h.atMostCommitted hup hstatus hupdates
  refine ⟨hcommitted, height, committed, ?_, ?_, hle⟩
  · rw [kv_blockHeight, hheight]
  · rw [kv_highestCommittedBlockHeight, hhighest]

/-- `effects` insert `block` after `before`. -/
def InsertsAt (s : BlockTree) (effects before : List Replica.Effect) (block : Block)
    (validatorSetUpdates : Option ValidatorSetUpdates) (rest : List Replica.Effect) : Prop :=
  ∃ appStateUpdates, effects = before ++
    .write (BlockTree.insertBatch (Store.replay s before) block appStateUpdates
      validatorSetUpdates) :: rest

/-- What is asked of the tree into which `block` is inserted. -/
structure InTime (s : BlockTree) (block : Block)
    (validatorSetUpdates : Option ValidatorSetUpdates) : Prop where
  /-- The hash of the block is not that of another block. -/
  fresh : s.Fresh block
  /-- A block that has children already is not inserted with updates. -/
  child : validatorSetUpdates.isSome = true → s.childrenOf block.hash = []
  /-- A parent with pending updates is above the committed height. -/
  parent : s.IsPending block.justify.block → ¬s.AtMostCommitted block.justify.block

/-- What is asked of the insertions of an iteration that starts in `s`. -/
def InsertsInTime (s : BlockTree) (effects : List Replica.Effect) : Prop :=
  ∀ before block validatorSetUpdates rest,
    InsertsAt s effects before block validatorSetUpdates rest →
    InTime (Store.replay s before) block validatorSetUpdates

/-- The last effect was not to insert a block below one with pending updates. -/
def ActsUponInserted (s : BlockTree) (effects : List Replica.Effect) : Prop :=
  ∀ before block validatorSetUpdates, InsertsAt s effects before block validatorSetUpdates [] →
    ¬BlockTree.IsPending (Store.replay s before) block.justify.block

theorem InsertsInTime.of_append {s : BlockTree} {effects rest : List Replica.Effect}
    (h : InsertsInTime s (effects ++ rest)) : InsertsInTime s effects := by
  intro before block validatorSetUpdates rest' hinserts
  obtain ⟨appStateUpdates, rfl⟩ := hinserts
  exact h before block validatorSetUpdates (rest' ++ rest) ⟨appStateUpdates, by simp⟩

variable {cr : Crypto} {config : Configuration} {apps : App → Prop} {s₀ : BlockTree}

namespace Point

/-- Validator set updates are immediate, as far as the iteration is as asked. -/
def Immediate (s₀ : BlockTree) (p : Point) : Prop :=
  InsertsInTime (s₀.replay p.log) p.effects → (p.tree s₀).Immediate

variable {p : Point}

theorem Immediate.act (h : p.Immediate s₀) {a : Action} : (p.emit (.act a)).Immediate s₀ := by
  intro hinserts
  rw [tree_emit]
  exact h hinserts.of_append

theorem Immediate.note (h : p.Immediate s₀) {v : Var} {x : v.Val} (hv : Protocol.IsNote v) :
    (p.emit (.write [.set v x])).Immediate s₀ := by
  intro hinserts
  have himmediate := h hinserts.of_append
  have hkept : ∀ v', ¬Protocol.IsNote v' → (p.tree s₀).write [.set v x] v' = p.tree s₀ v' := by
    intro v' hv'
    refine Store.write_of_notMem _ fun o ho => ?_
    obtain rfl := List.mem_singleton.mp ho
    rintro rfl
    exact hv' hv
  rw [tree_emit]
  refine himmediate.congr (fun v' b hb => hkept v' ?_) (hkept _ ?_) ?_
  · rintro (rfl | rfl | rfl) <;> cases hb
  · rintro (h | h | h) <;> cases h
  · have hvs : (p.tree s₀).write [.set v x] .committedValidatorSet =
        p.tree s₀ .committedValidatorSet := by
      refine hkept _ ?_
      rintro (h | h | h) <;> cases h
    rw [Store.perform_write, hvs]
    exact himmediate.validatorSet

theorem Immediate.update (h : p.Immediate s₀) {pc : PhaseCertificate} {fuel : Nat}
    {wb : WriteBatch} {updates : Option ValidatorSetUpdates}
    (hupdate : (p.tree s₀).updateBatch fuel pc = .ok (wb, updates)) :
    (p.emit (.write wb)).Immediate s₀ := by
  intro hinserts
  rw [tree_emit]
  exact (h hinserts.of_append).update nofun hupdate

theorem Immediate.tell (h : p.Immediate s₀) (updates : Option ValidatorSetUpdates) :
    (p.tell updates).Immediate s₀ := by
  cases updates with
  | none => exact h
  | some updates => exact h.act

variable {block : Block} {appStateUpdates : Option AppStateUpdates}
variable {validatorSetUpdates : Option ValidatorSetUpdates}

/-- What is asked of the iteration is asked of the tree into which a block is inserted. -/
theorem inTime_of_insertsInTime {rest : List Replica.Effect}
    (h : InsertsInTime (s₀.replay p.log) (p.effects ++ .write ((p.tree s₀).insertBatch block
      appStateUpdates validatorSetUpdates) :: rest)) :
    InTime (p.tree s₀) block validatorSetUpdates :=
  h p.effects block validatorSetUpdates rest ⟨appStateUpdates, rfl⟩

/-- A block is inserted, and its justify acted upon. -/
theorem Immediate.updateInserted (h : p.Immediate s₀) {chainId : ChainID} {fuel : Nat}
    {wb : WriteBatch} {updates : Option ValidatorSetUpdates}
    (hsafe : (p.tree s₀).safeBlock block chainId = .ok true)
    (hupdate : ((p.tree s₀).insert block appStateUpdates validatorSetUpdates).updateBatch fuel
      block.justify = .ok (wb, updates)) :
    ((p.emit (.write ((p.tree s₀).insertBatch block appStateUpdates
      validatorSetUpdates))).emit (.write wb)).Immediate s₀ := by
  intro hinserts
  have hinserts : InsertsInTime (s₀.replay p.log) (p.effects ++ .write ((p.tree s₀).insertBatch
      block appStateUpdates validatorSetUpdates) :: [.write wb]) := by
    have hassoc := hinserts
    simp only [emit, List.append_assoc, List.singleton_append] at hassoc
    exact hassoc
  have hinTime := inTime_of_insertsInTime hinserts
  rw [tree_emit, tree_emit]
  exact (h hinserts.of_append).updateInserted hinTime.fresh hsafe hinTime.child hinTime.parent
    hupdate

end Point

/-- Immediacy is kept by every move. -/
def immediacy (cr : Crypto) (config : Configuration) (apps : App → Prop) (s₀ : BlockTree)
    (hs₀ : s₀.Immediate) : RunInvariant cr config apps s₀ where
  Open p _ := p.Immediate s₀
  Halt p := InsertsInTime (s₀.replay p.log) p.effects →
    ActsUponInserted (s₀.replay p.log) p.effects → (p.tree s₀).Immediate
  Quiet p := InsertsInTime (s₀.replay p.log) p.effects ∧
    ActsUponInserted (s₀.replay p.log) p.effects
  Admits _ := True
  start _ _ := hs₀
  next {p c} h hquiet _ := by
    rw [Point.tree_next]
    exact h hquiet.1
  halt h hinserts _ := h hinserts
  crash {p v vss} h hquiet _ _ := by
    rw [Point.tree_crash]
    exact h hquiet.1 hquiet.2
  act h _ := Point.Immediate.act h
  enterView h := Point.Immediate.note h (.inl rfl)
  record h := Point.Immediate.note h (.inr (.inr rfl))
  insert {p c block appStateUpdates validatorSetUpdates app} h _ hsafe _ _ hinserts hacts := by
    have hinTime := Point.inTime_of_insertsInTime hinserts
    have hpending : ¬(p.tree s₀).IsPending block.justify.block :=
      hacts p.effects block validatorSetUpdates ⟨appStateUpdates, rfl⟩
    have himmediate : (p.tree s₀).Immediate := h hinserts.of_append
    rw [Point.tree_emit]
    exact himmediate.insert hinTime.fresh (himmediate.wf.parent_of_safeBlock hsafe) hinTime.child
      fun hp => absurd hp hpending
  updateInserted h _ hsafe _ _ hupdate := by
    have hupdated := Point.Immediate.updateInserted h hsafe hupdate
    exact ⟨fun hinserts _ => hupdated hinserts, hupdated.tell _⟩
  accept h _ _ hupdate := by
    have hupdated := Point.Immediate.update h hupdate
    exact ⟨fun hinserts _ => hupdated hinserts, hupdated.tell _⟩
  synced h _ _ _ hupdate := Point.Immediate.update h hupdate
  follow h _ := h
  newView h _ := h
  collect h _ _ := ⟨h, fun _ _ => Point.Immediate.note h (.inr (.inl rfl))⟩
  receiveTc h _ _ := Point.Immediate.note h (.inr (.inl rfl))

/-- The insertions of an iteration are in time, and it is not cut short between an insertion
below a block with pending updates and the update that has to follow. -/
def InsertsAndActs : Condition :=
  fun r _ _ effects => InsertsInTime r.tree effects ∧ ActsUponInserted r.tree effects

/-- In every run of such iterations, validator set updates are immediate whenever the replica
is ready to handle a message. -/
theorem validator_set_updates_are_immediate {appState : AppStateUpdates} {vss : ValidatorSetState}
    {log : List Event} {r : Replica}
    (run : RunUnder cr config apps (BlockTree.initial appState vss) InsertsAndActs log r) :
    r.tree.UpdatesAreImmediate := by
  have hsuffices : (immediacy cr config apps (BlockTree.initial appState vss)
      BlockTree.immediate_initial).Suffices InsertsAndActs :=
    RunInvariant.suffices_of_tree (Q := fun s effects => InsertsInTime s effects ∧
      ActsUponInserted s effects) (fun _ => trivial) fun _ _ h => h
  obtain ⟨-, htree, hopen⟩ := RunInvariant.isOpen_of_run hsuffices run
  have hnone : InsertsInTime ((BlockTree.initial appState vss).replay log) [] := by
    intro before block validatorSetUpdates rest hinserts
    obtain ⟨appStateUpdates, h⟩ := hinserts
    simp at h
  have himmediate := hopen hnone
  rw [htree]
  exact himmediate.updatesAreImmediate

/-! ## A run without a crash -/

/-- Whether a batch that inserts a block inserts a new one, without children, below one
without pending updates. -/
def insertsNew (s : BlockTree) : WriteBatch → Bool
  | .set (.blockHeight b) _ :: .set (.blockJustify _) justify :: _ =>
    b != 0 && s (.blockJustify b) == none && s.childrenOf b == [] &&
      s.pendingUpdates justify.block == none
  | _ => true

theorem insertsAndActs_of_checkWrites {r : Replica} {fuel : Nat} {input : Input}
    {effects : List Replica.Effect} (h : Store.checkWrites insertsNew r.tree effects = true) :
    InsertsAndActs r fuel input effects := by
  have hnew : ∀ before block validatorSetUpdates rest,
      InsertsAt r.tree effects before block validatorSetUpdates rest →
      InTime (Store.replay r.tree before) block validatorSetUpdates ∧
        ¬BlockTree.IsPending (Store.replay r.tree before) block.justify.block := by
    intro before block validatorSetUpdates rest hinserts
    obtain ⟨appStateUpdates, rfl⟩ := hinserts
    have hinserted := Store.check_of_checkWrites h
    generalize Store.replay r.tree before = s at hinserted ⊢
    have hchecked : (block.hash != 0 && s (.blockJustify block.hash) == none &&
        BlockTree.childrenOf s block.hash == [] &&
        BlockTree.pendingUpdates s block.justify.block == none) = true := hinserted
    simp only [Bool.and_eq_true, bne_iff_ne, ne_eq, beq_iff_eq] at hchecked
    obtain ⟨⟨⟨hhash, hnone⟩, hchildren⟩, hpending⟩ := hchecked
    have hnot : ¬BlockTree.IsPending s block.justify.block := by
      rintro ⟨updates, hstatus⟩
      rw [BlockTree.pendingUpdates, BlockTree.pending_iff.mpr hstatus] at hpending
      cases hpending
    refine ⟨⟨⟨hhash, fun j hj => ?_⟩, fun _ => hchildren, fun hp => absurd hp hnot⟩, hnot⟩
    rw [hnone] at hj
    cases hj
  constructor
  · intro before block validatorSetUpdates rest hinserts
    exact (hnew before block validatorSetUpdates rest hinserts).1
  · intro before block validatorSetUpdates hinserts
    exact (hnew before block validatorSetUpdates [] hinserts).2

/-! ## A run with a crash -/

/-- Whether a replica that starts over `s₀` and gets `inputs`, and crashes after the first `n`
effects of one more iteration, starts again over a tree with `P`. -/
def Replica.crashes (cr : Crypto) (config : Configuration) (s₀ : BlockTree) (fuel : Nat)
    (inputs : List Input) (input : Input) (n : Nat) (P : BlockTree → Bool) : Bool :=
  match Replica.start config s₀ 0 with
  | .ok r => (r.iterateAll cr fuel inputs).any fun (_, r') =>
    match Replica.start config
      (Store.replay r'.tree ((r'.iterated cr fuel input).effects.take n)) 0 with
    | .ok r'' => P r''.tree
    | .error _ => false
  | .error _ => false

theorem exists_run_of_crashes {fuel : Nat} {inputs : List Input} {input : Input} {n : Nat}
    {P : BlockTree → Bool} (happs : ∀ input ∈ inputs, apps input.app) (happ : apps input.app)
    (h : Replica.crashes cr config s₀ fuel inputs input n P = true) :
    ∃ log r, Run cr config apps s₀ log r ∧ P r.tree = true := by
  unfold Replica.crashes at h
  split at h
  · rename_i r hstart
    obtain ⟨⟨log, r'⟩, hall, hcrash⟩ := (Option.any_eq_true _ _).mp h
    dsimp only at hcrash
    split at hcrash
    · rename_i r'' hstart'
      have run := (Run.start hstart).iterateAll happs hall
      exact ⟨_, r'', run.restart happ (List.take_prefix n _) hstart', hcrash⟩
    · cases hcrash
  · cases h

namespace Sample

/-- The power of the leader is raised to 5. -/
def raisePower : ValidatorSetUpdates := UpdateSet.new.insert leader 5

/-- An app for which `block₀` raises the power of the leader. -/
def raisingApp : App where
  produceBlock := app.produceBlock
  validateBlock block _ :=
    .valid none (if block.dataHash = block₀.dataHash then some raisePower else none)
  validateBlockForSync block _ :=
    .valid none (if block.dataHash = block₀.dataHash then some raisePower else none)

def raising (input : Input) : Input := { input with app := raisingApp }

/-- The Decide PC of `block₀`, four views later. -/
def decided : PhaseCertificate := certify 4 block₀.hash .decide

def child : Block := blockOn 1 decided 102

/-- The replica gets `block₀` and, with the Decide PC, enters the view after it. -/
def raiseAndDecide : List Input :=
  [advance (.timeoutCertificate timeout), propose 1 block₀, advance (.phaseCertificate decided)].map
    raising

/-- In between, a `NewView` shows that `block₀` is to be committed. -/
def raiseAndCommit : List Input :=
  [advance (.timeoutCertificate timeout), propose 1 block₀,
   input leader (.hotStuff (.newView ⟨7, 1, certify 1 block₀.hash .commit⟩)) (3 * 10 ^ 9),
   advance (.phaseCertificate decided), propose 5 child].map raising

/-- Whether `child` is in the tree, and the updates of `block₀` have the given status. -/
def childWith (status : ValidatorSetUpdatesStatus) (s : BlockTree) : Bool :=
  s (.blockJustify child.hash) == some decided &&
    s (.validatorSetUpdatesStatus block₀.hash) == some status

end Sample

theorem app_raising (inputs : List Input) :
    ∀ input ∈ inputs.map Sample.raising, input.app = Sample.raisingApp := by
  simp [Sample.raising]

set_option maxRecDepth 100000 in
theorem checks_raiseAndCommit : Replica.checks Sample.crypto (Sample.configuration 3) Sample.tree 20
    (fun r effects => Store.checkWrites insertsNew r.tree effects) Sample.raiseAndCommit
    (fun _ r => Sample.childWith .committed r.tree) = true := by
  decide +kernel

set_option maxRecDepth 100000 in
theorem crashes_beforeUpdate : Replica.crashes Sample.crypto (Sample.configuration 3) Sample.tree 20
    Sample.raiseAndDecide (Sample.raising (Sample.propose 5 Sample.child)) 3
    (Sample.childWith (.pending Sample.raisePower)) = true := by
  decide +kernel

theorem validator_set_updates_are_immediate_after_commit : ∃ log r,
    RunUnder Sample.crypto (Sample.configuration 3) (· = Sample.raisingApp) Sample.tree
      InsertsAndActs log r ∧
    r.tree.kv.blockJustify Sample.child.hash = .ok Sample.decided ∧
    r.tree.kv.validatorSetUpdatesStatus Sample.decided.block = .ok .committed ∧
    ∃ height committed, r.tree.kv.blockHeight Sample.decided.block = .ok (some height) ∧
      r.tree.kv.highestCommittedBlockHeight = .ok (some committed) ∧ height ≤ committed := by
  obtain ⟨log, r, run, hchild⟩ := @exists_runUnder_of_checks _ _ (· = Sample.raisingApp) _
    InsertsAndActs _ _ _ _ (app_raising _) (fun _ _ _ _ => insertsAndActs_of_checkWrites)
    checks_raiseAndCommit
  simp only [Sample.childWith, Bool.and_eq_true, beq_iff_eq] at hchild
  have hjustify : r.tree.kv.blockJustify Sample.child.hash = .ok Sample.decided :=
    kv_blockJustify_eq_ok.mpr hchild.1
  have hstatus : r.tree.kv.validatorSetUpdatesStatus Sample.decided.block = .ok .committed := by
    have hcommitted : r.tree (.validatorSetUpdatesStatus Sample.decided.block) = some .committed :=
      hchild.2
    rw [kv_validatorSetUpdatesStatus, hcommitted]
    rfl
  exact ⟨log, r, run, hjustify, hstatus,
    (validator_set_updates_are_immediate run _ _ _ hjustify hstatus rfl).2⟩

theorem validator_set_updates_are_not_immediate : ¬∀ (cr : Crypto) (config : Configuration)
    (apps : App → Prop) (appState : AppStateUpdates) (vss : ValidatorSetState) (log : List Event)
    (r : Replica), Run cr config apps (BlockTree.initial appState vss) log r →
    r.tree.UpdatesAreImmediate := by
  intro h
  obtain ⟨log, r, run, hchild⟩ := @exists_run_of_crashes _ _ (· = Sample.raisingApp) _ _ _ _ _ _
    (app_raising _) rfl crashes_beforeUpdate
  simp only [Sample.childWith, Bool.and_eq_true, beq_iff_eq] at hchild
  have hjustify : r.tree.kv.blockJustify Sample.child.hash = .ok Sample.decided :=
    kv_blockJustify_eq_ok.mpr hchild.1
  have hstatus : r.tree.kv.validatorSetUpdatesStatus Sample.decided.block =
      .ok (.pending Sample.raisePower) := BlockTree.pending_iff.mpr hchild.2
  cases (h _ _ _ _ _ log r run _ _ _ hjustify hstatus rfl).1

end HotStuffRs
