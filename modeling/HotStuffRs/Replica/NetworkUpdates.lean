import HotStuffRs.BlockTree.CommitEach
import HotStuffRs.BlockTree.CommittedUpdates
import HotStuffRs.Replica.Under
import Mathlib.Data.ZMod.Defs

/-
What the network layer is told of validator set updates.

`ReplicaSpec::start` hands the committed validator set to `init_validator_set`, and from
then on the network provider is expected to follow by `update_validator_set` alone.
-/

namespace HotStuffRs

open Kv Kv.Process

/-- What has happened to the validator set since the replica was last started. -/
structure Session where
  tree : BlockTree
  /-- What `init_validator_set` was given. -/
  initial : Result ValidatorSet
  /-- What `update_validator_set` was given, oldest first. -/
  told : List ValidatorSetUpdates
  /-- The validator set updates of the blocks committed, oldest first. -/
  committed : List ValidatorSetUpdates

namespace Session

def start (s : BlockTree) : Session where
  tree := s
  initial := s.kv.committedValidatorSet
  told := []
  committed := []

def step (session : Session) : Event → Session
  | .effect (.act (.updateValidatorSet updates)) =>
    { session with told := session.told ++ [updates] }
  | .effect (.act _) => session
  | .effect (.write wb) =>
    { session with
      tree := session.tree.write wb
      committed := session.committed ++ session.tree.committedUpdates wb }
  | .crash => start session.tree

/-- The session at the end of a run from `s₀`. -/
def after (s₀ : BlockTree) (log : List Event) : Session := log.foldl step (start s₀)

/-- What the network was told is what was committed, and leads from the first validator set
to the committed one. -/
structure Told (session : Session) : Prop where
  committed : session.told = session.committed
  validatorSet : ∃ vs, session.initial = .ok vs ∧
    session.tree .committedValidatorSet = some (session.told.foldl ValidatorSet.applyUpdates vs)

variable {s₀ : BlockTree} {session : Session}

theorem after_snoc (log : List Event) (e : Event) :
    after s₀ (log ++ [e]) = (after s₀ log).step e := by
  rw [after, List.foldl_append]
  rfl

theorem tree_after (log : List Event) : (after s₀ log).tree = s₀.replay log := by
  induction log using List.reverseRecOn with
  | nil => rfl
  | append_singleton log e ih =>
    rw [after_snoc, BlockTree.replay_snoc, ← ih]
    cases e with
    | crash => rfl
    | effect e =>
      cases e with
      | write wb => rfl
      | act a => cases a <;> rfl

theorem told_start {s : BlockTree} {vss : ValidatorSetState}
    (h : s.kv.validatorSetState = .ok vss) : (start s).Told := by
  obtain ⟨hvs, -⟩ := kv_validatorSetState_eq_ok.mp h
  exact ⟨rfl, _, kv_committedValidatorSet_eq_ok.mpr hvs, hvs⟩

/-- A write that commits no validator set updates, and leaves the committed validator set. -/
theorem Told.write (h : session.Told) {wb : WriteBatch}
    (hnone : session.tree.committedUpdates wb = [])
    (hkept : session.tree.write wb .committedValidatorSet = session.tree .committedValidatorSet) :
    (session.step (.effect (.write wb))).Told := by
  obtain ⟨vs, hinitial, hvs⟩ := h.validatorSet
  refine ⟨?_, vs, hinitial, hkept.trans hvs⟩
  simp only [step, hnone, List.append_nil]
  exact h.committed

end Session

/-- What is asked of an iteration that starts in `s`: no write commits validator set updates
of more than one block, and when a sync acts upon the highest PC of a response, its write
commits none. -/
def ForwardsUpdates (s : BlockTree) (effects : List Replica.Effect) : Prop :=
  ∀ before wb rest, effects = before ++ .write wb :: rest →
    let updates := BlockTree.committedUpdates (Store.replay s before) wb
    updates.length ≤ 1 ∧ (Replica.Syncing before → updates = [])

theorem ForwardsUpdates.of_append {s : BlockTree} {effects rest : List Replica.Effect}
    (h : ForwardsUpdates s (effects ++ rest)) : ForwardsUpdates s effects := by
  rintro before wb rest' rfl
  exact h before wb (rest' ++ rest) (by simp)

variable {cr : Crypto} {config : Configuration} {apps : App → Prop} {s₀ : BlockTree}

namespace Point

/-- The network was told of everything, as far as the iteration is as asked. -/
def Told (s₀ : BlockTree) (p : Point) : Prop :=
  ForwardsUpdates (s₀.replay p.log) p.effects → (Session.after s₀ p.past).Told

variable {p : Point}

theorem tree_session : (Session.after s₀ p.past).tree = p.tree s₀ := by
  rw [Session.tree_after, tree_eq]

theorem Told.act (h : p.Told s₀) {a : Action} (ha : ∀ updates, a ≠ .updateValidatorSet updates) :
    (p.emit (.act a)).Told s₀ := by
  intro hforwards
  rw [past_emit, Session.after_snoc]
  cases a with
  | updateValidatorSet updates => exact absurd rfl (ha updates)
  | send | broadcast => exact h hforwards.of_append

/-- A write that commits nothing. -/
theorem Told.write (h : p.Told s₀) {wb : WriteBatch} (hnone : (p.tree s₀).committedUpdates wb = [])
    (hkept : (p.tree s₀).write wb .committedValidatorSet = p.tree s₀ .committedValidatorSet) :
    (p.emit (.write wb)).Told s₀ := by
  intro hforwards
  rw [past_emit, Session.after_snoc]
  rw [← tree_session] at hnone hkept
  exact (h hforwards.of_append).write hnone hkept

theorem Told.note (h : p.Told s₀) {v : Var} {x : v.Val} (hv : Protocol.IsNote v) :
    (p.emit (.write [.set v x])).Told s₀ := by
  exact h.write (BlockTree.committedUpdates_of_committedBlocks (Protocol.committedBlocks_note hv))
    (Protocol.write_note hv (by simp [Protocol.IsNote]))

/-- What a write commits is told right after it. -/
theorem Told.update (h : p.Told s₀) {pc : PhaseCertificate} {fuel : Nat} {wb : WriteBatch}
    {updates : Option ValidatorSetUpdates}
    (hupdate : (p.tree s₀).updateBatch fuel pc = .ok (wb, updates)) :
    ((p.emit (.write wb)).tell updates).Told s₀ := by
  obtain ⟨hlast, hsome, hwrite⟩ := BlockTree.updates_updateBatch hupdate
  cases updates with
  | none =>
    exact h.write (List.getLast?_eq_none_iff.mp hlast.symm) hwrite
  | some updates =>
    intro hforwards
    have hforwards : ForwardsUpdates (s₀.replay p.log)
        (p.effects ++ [.write wb] ++ [.act (.updateValidatorSet updates)]) := hforwards
    have htold := h hforwards.of_append.of_append
    obtain ⟨hlength, -⟩ := hforwards.of_append p.effects wb [] rfl
    -- The last of at most one are all.
    have hall : (p.tree s₀).committedUpdates wb = [updates] := by
      have hlength : ((p.tree s₀).committedUpdates wb).length ≤ 1 := hlength
      cases hcommitted : (p.tree s₀).committedUpdates wb with
      | nil =>
        rw [hcommitted] at hlast
        cases hlast
      | cons first others =>
        rw [hcommitted] at hlength hlast
        obtain rfl : others = [] := by simpa using hlength
        rw [List.getLast?_singleton] at hlast
        rw [Option.some.inj hlast]
    obtain ⟨committed, vs, hinitial, hvs⟩ := htold
    rw [tell, past_emit, past_emit, Session.after_snoc, Session.after_snoc]
    rw [tree_session] at hvs
    refine ⟨?_, vs, hinitial, ?_⟩
    · simp only [Session.step, tree_session, hall, committed]
    · have hset : (p.tree s₀).write wb .committedValidatorSet =
          some (((Session.after s₀ p.past).told.foldl ValidatorSet.applyUpdates vs).applyUpdates
            updates) := by
        rw [hwrite, BlockTree.validatorSetAfter, hvs]
        rfl
      simp only [Session.step, tree_session, List.foldl_append, List.foldl_cons, List.foldl_nil]
      exact hset

theorem Told.updateInserted (h : p.Told s₀) {block : Block}
    {appStateUpdates : Option AppStateUpdates} {validatorSetUpdates : Option ValidatorSetUpdates}
    {pc : PhaseCertificate} {fuel : Nat} {wb : WriteBatch} {updates : Option ValidatorSetUpdates}
    (hupdate : ((p.tree s₀).insert block appStateUpdates validatorSetUpdates).updateBatch fuel pc =
      .ok (wb, updates)) :
    (((p.emit (.write ((p.tree s₀).insertBatch block appStateUpdates
      validatorSetUpdates))).emit (.write wb)).tell updates).Told s₀ := by
  have hkept : (p.tree s₀).insert block appStateUpdates validatorSetUpdates
      .committedValidatorSet = p.tree s₀ .committedValidatorSet :=
    BlockTree.insert_of_block?_eq_none rfl (by decide)
  have hinserted : (p.emit (.write ((p.tree s₀).insertBatch block appStateUpdates
      validatorSetUpdates))).Told s₀ := h.write
        (BlockTree.committedUpdates_of_committedBlocks BlockTree.committedBlocks_insertBatch) hkept
  rw [BlockTree.insert, ← Store.perform_write, ← tree_emit] at hupdate
  exact hinserted.update hupdate

/-- While syncing, a write commits nothing. -/
theorem Told.synced (h : p.Told s₀) (hsyncing : Replica.Syncing p.effects)
    {pc : PhaseCertificate} {fuel : Nat} {wb : WriteBatch} {updates : Option ValidatorSetUpdates}
    (hupdate : (p.tree s₀).updateBatch fuel pc = .ok (wb, updates)) :
    (p.emit (.write wb)).Told s₀ := by
  intro hforwards
  have hnone : (p.tree s₀).committedUpdates wb = [] :=
    (hforwards p.effects wb [] rfl).2 hsyncing
  obtain ⟨hlast, -, hwrite⟩ := BlockTree.updates_updateBatch hupdate
  rw [hnone] at hlast
  subst hlast
  exact h.write hnone hwrite hforwards

end Point

/-- That the network is told of every validator set update is kept by every move. -/
def toldOfUpdates (cr : Crypto) (config : Configuration) (apps : App → Prop) (s₀ : BlockTree) :
    RunInvariant cr config apps s₀ where
  Open p _ := p.Told s₀
  Halt _ := True
  Quiet p := ForwardsUpdates (s₀.replay p.log) p.effects
  Admits _ := True
  start hvss _ := Session.told_start hvss
  next {p c} h hquiet _ := by
    rw [Point.past_next]
    exact h hquiet
  halt _ := trivial
  crash {p v vss} _ _ hvss _ := by
    rw [Point.past_crash, Session.after_snoc]
    rw [← Point.tree_session] at hvss
    exact Session.told_start hvss
  act h ha := h.act ha
  enterView h := h.note (.inl rfl)
  record h := h.note (.inr (.inr rfl))
  insert _ _ _ _ _ := trivial
  updateInserted h _ _ _ _ hupdate := ⟨trivial, h.updateInserted hupdate⟩
  accept h _ _ hupdate := ⟨trivial, h.update hupdate⟩
  synced h hsyncing _ _ hupdate := h.synced hsyncing hupdate
  follow h _ := h
  newView h _ := h
  collect h _ _ := ⟨h, fun _ _ => h.note (.inr (.inl rfl))⟩
  receiveTc h _ _ := h.note (.inr (.inl rfl))

/-- No iteration commits validator set updates of several blocks by one write, or any as a
sync acts upon the highest PC of a response. -/
def ForwardsAllUpdates : Condition := fun r _ _ effects => ForwardsUpdates r.tree effects

/-- In every run of such iterations, the network layer has been told of the validator set
updates of exactly the blocks committed since start-up, in commit order, and they lead from
the initial validator set to the committed one. -/
theorem network_told_of_updates {log : List Event} {r : Replica}
    (run : RunUnder cr config apps s₀ ForwardsAllUpdates log r) :
    let session := Session.after s₀ log
    session.told = session.committed ∧ ∃ vs, session.initial = .ok vs ∧
      r.tree.kv.committedValidatorSet = .ok (session.told.foldl ValidatorSet.applyUpdates vs) := by
  have hsuffices : (toldOfUpdates cr config apps s₀).Suffices ForwardsAllUpdates :=
    RunInvariant.suffices_of_tree (Q := ForwardsUpdates) (fun _ => trivial) fun _ _ h => h
  obtain ⟨-, htree, hopen⟩ := RunInvariant.isOpen_of_run hsuffices run
  have hnone : ForwardsUpdates (s₀.replay log) [] := by
    intro before wb rest h
    simp at h
  obtain ⟨hcommitted, vs, hinitial, hvs⟩ := hopen hnone
  have hpast : (Point.past ⟨log, []⟩) = log := by simp [Point.past]
  rw [hpast] at hcommitted hinitial hvs
  rw [Session.tree_after, ← htree] at hvs
  exact ⟨hcommitted, vs, hinitial, kv_committedValidatorSet_eq_ok.mpr hvs⟩

/-! ## Updates by a vote and by a sync -/

def Replica.Effect.isSyncRequest : Replica.Effect → Bool
  | .act (.send _ (.blockSyncRequest _)) => true
  | _ => false

/-- Whether a write commits validator set updates of at most one block. -/
def updatesAtMostOne (s : BlockTree) (wb : WriteBatch) : Bool :=
  decide ((s.committedUpdates wb).length ≤ 1)

/-- Without a sync, it is enough that updates are committed one by one. -/
theorem forwardsUpdates_of_checkWrites {s : BlockTree} {effects : List Replica.Effect}
    (hrequest : effects.all (! ·.isSyncRequest) = true)
    (h : Store.checkWrites updatesAtMostOne s effects = true) : ForwardsUpdates s effects := by
  rintro before wb rest rfl
  constructor
  · have hlength := Store.check_of_checkWrites h
    exact of_decide_eq_true hlength
  · intro hsyncing
    obtain ⟨peer, request, hmem⟩ := hsyncing.1
    have hnot := List.all_eq_true.mp hrequest _ (List.mem_append_left _ hmem)
    cases hnot

namespace Sample

/-- An app that adds a validator with every block. -/
def updatingApp : App where
  produceBlock := app.produceBlock
  validateBlock _ _ := .valid none (some (BlockTree.addValidator 5))
  validateBlockForSync _ _ := .valid none (some (BlockTree.addValidator 5))

def withUpdates (input : Input) : Input := { input with app := updatingApp }

/-- A block that adds a validator is proposed and, as a `NewView` shows, to be committed. -/
def proposeAndCommit : List Input :=
  [withUpdates (advance (.timeoutCertificate timeout)), withUpdates (propose 1 block₀),
   withUpdates (input leader (.hotStuff (.newView ⟨7, 1, certify 1 block₀.hash .commit⟩))
     (3 * 10 ^ 9))]

def advertiseBlock : AdvertiseBlock :=
  ⟨7, 0, crypto.sign leader (AdvertiseBlock.messageBytes ⟨7, 0, 0⟩)⟩

/-- The same block is synced, together with the certificate that it is to be committed. -/
def syncAndCommit : List Input :=
  [withUpdates (input leader (.blockSyncAdvertise (.advertiseBlock advertiseBlock)) 0),
   { now := 10 ^ 20
     app := updatingApp
     message := none
     messageResponses := []
     tickResponses := [⟨[block₀], certify 1 block₀.hash .commit⟩]
     choice := 0 }]

end Sample

theorem app_proposeAndCommit : ∀ input ∈ Sample.proposeAndCommit, input.app = Sample.updatingApp := by
  simp [Sample.proposeAndCommit, Sample.withUpdates]

theorem app_syncAndCommit : ∀ input ∈ Sample.syncAndCommit, input.app = Sample.updatingApp := by
  simp [Sample.syncAndCommit, Sample.withUpdates]

set_option maxRecDepth 100000 in
theorem checks_proposeAndCommit : Replica.checks Sample.crypto (Sample.configuration 3)
    Sample.tree 20 (fun r effects => effects.all (! ·.isSyncRequest) &&
      Store.checkWrites updatesAtMostOne r.tree effects)
    Sample.proposeAndCommit
    (fun log _ => (Session.after Sample.tree log).told == [BlockTree.addValidator 5]) = true := by
  decide +kernel

set_option maxRecDepth 100000 in
theorem checks_syncAndCommit : Replica.checks Sample.crypto (Sample.configuration 3)
    Sample.tree 20 (fun _ _ => true) Sample.syncAndCommit
    (fun log _ => (Session.after Sample.tree log).told == [] &&
      (Session.after Sample.tree log).committed == [BlockTree.addValidator 5]) = true := by
  decide +kernel

theorem network_told_of_updates_by_vote : ∃ log r,
    RunUnder Sample.crypto (Sample.configuration 3) (· = Sample.updatingApp) Sample.tree
      ForwardsAllUpdates log r ∧
    (Session.after Sample.tree log).told = [BlockTree.addValidator 5] ∧
    (Session.after Sample.tree log).committed = [BlockTree.addValidator 5] ∧
    ∃ vs, (Session.after Sample.tree log).initial = .ok vs ∧
      r.tree.kv.committedValidatorSet = .ok (vs.applyUpdates (BlockTree.addValidator 5)) := by
  obtain ⟨log, r, run, htold⟩ := @exists_runUnder_of_checks _ _ (· = Sample.updatingApp) _
    ForwardsAllUpdates _ _ _ _ app_proposeAndCommit (fun r input _ effects h => by
      rw [Bool.and_eq_true] at h
      exact forwardsUpdates_of_checkWrites h.1 h.2) checks_proposeAndCommit
  have htold : (Session.after Sample.tree log).told = [BlockTree.addValidator 5] := by
    simpa using htold
  obtain ⟨hcommitted, vs, hinitial, hvs⟩ := network_told_of_updates run
  rw [htold] at hcommitted hvs
  exact ⟨log, r, run, htold, hcommitted.symm, vs, hinitial, hvs⟩

theorem network_not_told_of_updates : ¬∀ (cr : Crypto) (config : Configuration)
    (apps : App → Prop) (s₀ : BlockTree) (log : List Event) (r : Replica),
    Run cr config apps s₀ log r →
    let session := Session.after s₀ log
    session.told = session.committed ∧ ∃ vs, session.initial = .ok vs ∧
      r.tree.kv.committedValidatorSet =
        .ok (session.told.foldl ValidatorSet.applyUpdates vs) := by
  intro h
  obtain ⟨log, r, run, hlog⟩ := @exists_runUnder_of_checks _ _ (· = Sample.updatingApp) _
    (fun _ _ _ _ => True) _ _ _ _ app_syncAndCommit (fun _ _ _ _ _ => trivial) checks_syncAndCommit
  simp only [Bool.and_eq_true, beq_iff_eq] at hlog
  have hsame := (h _ _ _ _ log r run.run).1
  rw [hlog.1, hlog.2] at hsame
  cases hsame

end HotStuffRs
