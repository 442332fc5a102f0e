import HotStuffRs.BlockTree.Safe
import HotStuffRs.Replica.Tree

/-
Invariants over whole runs.

A run invariant says what holds between two moves of a replica, and what a crash may
find at any point within them.  It is asked to be kept by each move once; that the
handlers make no other moves is proved here, once for all invariants.
-/

namespace HotStuffRs

open Kv Kv.Process

abbrev TimeoutVoteCollectors := ActiveCollectorPair TimeoutVoteCollector

/-- After such effects of an iteration, a sync has sent a request, and the last effect was
not to insert a block. -/
def Replica.Syncing (effects : List Replica.Effect) : Prop :=
  (∃ peer request, .act (.send peer (.blockSyncRequest request)) ∈ effects) ∧
  ∀ wb, effects.getLast? = some (.write wb) → ¬ WriteBatch.Inserts wb

/-- A point within an iteration: the events before the iteration, and its effects so far. -/
structure Point where
  log : List Event
  effects : List Replica.Effect

namespace Point

/-- All events so far. -/
def past (p : Point) : List Event := p.log ++ p.effects.map .effect

def tree (s₀ : BlockTree) (p : Point) : BlockTree := Store.replay (s₀.replay p.log) p.effects

def emit (p : Point) (e : Replica.Effect) : Point := { p with effects := p.effects ++ [e] }

/-- The network is told of validator set updates, if there are any. -/
def tell (p : Point) : Option ValidatorSetUpdates → Point
  | some updates => p.emit (.act (.updateValidatorSet updates))
  | none => p

/-- The point at which the next iteration starts. -/
def next (p : Point) : Point := ⟨p.past, []⟩

/-- The point at which a replica starts again after a crash. -/
def crash (p : Point) : Point := ⟨p.past ++ [.crash], []⟩

variable {s₀ : BlockTree} (p : Point)

theorem tree_eq : p.tree s₀ = s₀.replay p.past := by
  rw [past, BlockTree.replay_append, BlockTree.replay_effects, tree]

@[simp] theorem past_emit (e : Replica.Effect) : (p.emit e).past = p.past ++ [.effect e] := by
  simp [past, emit]

@[simp] theorem past_next : p.next.past = p.past := by simp [past, next]

@[simp] theorem past_crash : p.crash.past = p.past ++ [.crash] := by simp [past, crash]

@[simp] theorem tree_emit (e : Replica.Effect) :
    (p.emit e).tree s₀ = Store.perform (p.tree s₀) e := by
  rw [tree, emit, Store.replay_append]
  rfl

@[simp] theorem tree_tell (updates : Option ValidatorSetUpdates) :
    (p.tell updates).tree s₀ = p.tree s₀ := by
  cases updates with
  | none => rfl
  | some updates => exact tree_emit p _

@[simp] theorem tree_next : p.next.tree s₀ = p.tree s₀ := by rw [tree_eq, tree_eq, past_next]

@[simp] theorem tree_crash : p.crash.tree s₀ = p.tree s₀ := by
  rw [tree_eq, tree_eq, past_crash, BlockTree.replay_snoc, BlockTree.perform_crash]

end Point

/-- A claim about all points of all runs over `s₀`, and why every move keeps it.  `Open`
speaks of the points between two moves, and of the timeout votes collected there. -/
structure RunInvariant (cr : Crypto) (config : Configuration) (apps : App → Prop)
    (s₀ : BlockTree) where
  Open : Point → TimeoutVoteCollectors → Prop
  /-- What a crash may find. -/
  Halt : Point → Prop
  /-- What is asked of an iteration, given where it ends. -/
  Quiet : Point → Prop
  /-- What is asked of the timeout certificates that come with timeout votes. -/
  Admits : TimeoutCertificate → Prop
  start {v vss} (hvss : s₀.kv.validatorSetState = .ok vss) :
    Open ⟨[], []⟩ (.new config.chainId v vss)
  next {p c} (h : Open p c) (hquiet : Quiet p) : Open p.next c
  halt {p c} (h : Open p c) : Halt p
  crash {p v vss} (h : Halt p) (hquiet : Quiet p)
    (hvss : (p.tree s₀).kv.validatorSetState = .ok vss) :
    Open p.crash (.new config.chainId v vss)
  act {p c a} (h : Open p c) (ha : ∀ updates, a ≠ .updateValidatorSet updates) :
    Open (p.emit (.act a)) c
  enterView {p c v} (h : Open p c) : Open (p.emit (.write (WriteBatch.setHighestViewEntered v))) c
  record {p c v} (h : Open p c) : Open (p.emit (.write (WriteBatch.setHighestViewPhaseVoted v))) c
  insert {p c block appStateUpdates validatorSetUpdates app} (h : Open p c)
    (hcorrect : block.isCorrect cr (p.tree s₀) = .ok true)
    (hsafe : (p.tree s₀).safeBlock block config.chainId = .ok true)
    (happ : apps app) (hvalid : app.Validates block appStateUpdates validatorSetUpdates) :
    Halt (p.emit (.write ((p.tree s₀).insertBatch block appStateUpdates validatorSetUpdates)))
  /-- `block` is inserted, and then its justify is acted upon. -/
  updateInserted {p c block appStateUpdates validatorSetUpdates app fuel wb updates}
    (h : Open p c) (hcorrect : block.isCorrect cr (p.tree s₀) = .ok true)
    (hsafe : (p.tree s₀).safeBlock block config.chainId = .ok true)
    (happ : apps app) (hvalid : app.Validates block appStateUpdates validatorSetUpdates)
    (hupdate : ((p.tree s₀).insert block appStateUpdates validatorSetUpdates).updateBatch fuel
      block.justify = .ok (wb, updates)) :
    let p' := (p.emit (.write ((p.tree s₀).insertBatch block appStateUpdates
      validatorSetUpdates))).emit (.write wb)
    Halt p' ∧ Open (p'.tell updates) c
  accept {p c pc fuel wb updates} (h : Open p c) (hcorrect : pc.isCorrect cr (p.tree s₀) = .ok true)
    (hsafe : (p.tree s₀).safePc pc config.chainId = .ok true)
    (hupdate : (p.tree s₀).updateBatch fuel pc = .ok (wb, updates)) :
    Halt (p.emit (.write wb)) ∧ Open ((p.emit (.write wb)).tell updates) c
  /-- A sync acts upon the highest PC of a response, and tells nobody. -/
  synced {p c pc fuel wb updates} (h : Open p c) (hsyncing : Replica.Syncing p.effects)
    (hcorrect : pc.isCorrect cr (p.tree s₀) = .ok true)
    (hsafe : (p.tree s₀).safePc pc config.chainId = .ok true)
    (hupdate : (p.tree s₀).updateBatch fuel pc = .ok (wb, updates)) :
    Open (p.emit (.write wb)) c
  /-- The collectors follow the validator set state. -/
  follow {p c vss} (h : Open p c) (hvss : (p.tree s₀).kv.validatorSetState = .ok vss) :
    Open p (c.updateValidatorSets vss).1
  newView {p c v vss} (h : Open p c) (hvss : (p.tree s₀).kv.validatorSetState = .ok vss) :
    Open p (.new config.chainId v vss)
  collect {p c c' origin vote tc} (h : Open p c) (hcorrect : vote.isCorrect cr origin = true)
    (hcollect : c.collect origin vote = .ok (tc, c')) :
    Open p c' ∧ ∀ tc' ∈ tc, Open (p.emit (.write (WriteBatch.setHighestTc tc'))) c'
  /-- A timeout certificate that another replica holds is stored. -/
  receiveTc {p c tc} (h : Open p c) (hcorrect : tc.isCorrect cr (p.tree s₀) = .ok true)
    (hchain : tc.chainId = config.chainId ∨ Admits tc) :
    Open (p.emit (.write (WriteBatch.setHighestTc tc))) c

end HotStuffRs
