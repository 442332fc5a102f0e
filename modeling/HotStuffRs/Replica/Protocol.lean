import HotStuffRs.Algorithm
import HotStuffRs.Lts.Path

namespace HotStuffRs

open Kv

/-- The phase vote that an action sends, if it does. -/
def Action.phaseVote? : Action → Option PhaseVote
  | .send _ (.progress (.hotStuff (.phaseVote vote))) => some vote
  | .broadcast (.progress (.hotStuff (.phaseVote vote))) => some vote
  | _ => none

/-- Whether `app` may answer that `block` is valid, with the given updates. -/
def App.Validates (app : App) (block : Block) (appStateUpdates : Option AppStateUpdates)
    (validatorSetUpdates : Option ValidatorSetUpdates) : Prop :=
  ∃ view, app.validateBlock block view = .valid appStateUpdates validatorSetUpdates ∨
    app.validateBlockForSync block view = .valid appStateUpdates validatorSetUpdates

/-- What a run leaves behind, in order: the effects of its handlers, and the
crashes between them. -/
inductive Event
  | effect (e : Replica.Effect)
  | crash

namespace BlockTree

def perform (s : BlockTree) : Event → BlockTree
  | .effect e => Store.perform s e
  | .crash => s

/-- The tree after the events of `log`. -/
def replay (s : BlockTree) (log : List Event) : BlockTree := log.foldl perform s

@[simp] theorem replay_nil (s : BlockTree) : s.replay [] = s := rfl

theorem replay_append (s : BlockTree) (a b : List Event) :
    s.replay (a ++ b) = (s.replay a).replay b :=
  List.foldl_append

@[simp] theorem replay_snoc (s : BlockTree) (log : List Event) (e : Event) :
    s.replay (log ++ [e]) = (s.replay log).perform e :=
  List.foldl_append

theorem replay_effects (s : BlockTree) (effects : List Replica.Effect) :
    s.replay (effects.map .effect) = Store.replay s effects :=
  List.foldl_map

@[simp] theorem perform_act (s : BlockTree) (a : Action) : s.perform (.effect (.act a)) = s := rfl

@[simp] theorem perform_write (s : BlockTree) (wb : WriteBatch) :
    s.perform (.effect (.write wb)) = s.write wb := rfl

@[simp] theorem perform_crash (s : BlockTree) : s.perform .crash = s := rfl

/-- What no event writes stays as it is. -/
theorem replay_of_notMem {s : BlockTree} {log : List Event} {v : Var}
    (h : ∀ wb, .effect (.write wb) ∈ log → ∀ o ∈ wb, v ≠ o.key) : s.replay log v = s v := by
  induction log generalizing s with
  | nil => rfl
  | cons e log ih =>
    have hrest : (s.perform e).replay log v = s.perform e v :=
      ih fun wb hwb => h wb (List.mem_cons_of_mem _ hwb)
    refine hrest.trans ?_
    cases e with
    | crash => rfl
    | effect e =>
      cases e with
      | act a => rfl
      | write wb => exact Store.write_of_notMem s (h wb List.mem_cons_self)

/-- What is there after a log was there before, or one of its writes has set it. -/
theorem replay_eq_some {s : BlockTree} {log : List Event} {v : Var} {x : v.Val}
    (h : s.replay log v = some x) :
    s v = some x ∨ ∃ wb, .effect (.write wb) ∈ log ∧ .set v x ∈ wb := by
  induction log using List.reverseRecOn with
  | nil => exact .inl h
  | append_singleton log e ih =>
    have hlast : ∀ wb, .effect (.write wb) ∈ log → .effect (.write wb) ∈ log ++ [e] :=
      fun _ hwb => List.mem_append_left _ hwb
    rw [replay_snoc] at h
    cases e with
    | crash => exact (ih h).imp_right fun ⟨wb, hwb, hset⟩ => ⟨wb, hlast wb hwb, hset⟩
    | effect e =>
      cases e with
      | act a => exact (ih h).imp_right fun ⟨wb, hwb, hset⟩ => ⟨wb, hlast wb hwb, hset⟩
      | write wb =>
        rcases Store.cases_of_write _ h with hset | ⟨-, hbefore⟩
        · exact .inr ⟨wb, by simp, hset⟩
        · exact (ih hbefore).imp_right fun ⟨wb, hwb, hset⟩ => ⟨wb, hlast wb hwb, hset⟩

end BlockTree

namespace Protocol

/-- Where a replica stands between two of its effects. -/
inductive Stage
  | idle
  /-- `block` was inserted, and its justify is acted upon next. -/
  | inserted (block : Block) (phase : Phase)
  /-- `justify` was acted upon, and a vote for `block` may follow. -/
  | mayVote (justify : PhaseCertificate) (block : CryptoHash) (phase : Phase)
  /-- A vote was sent, and is recorded next. -/
  | voted

/-- Whether the handler may go on to something else. -/
def Stage.IsOpen : Stage → Prop
  | idle | mayVote .. => True
  | inserted .. | voted => False

theorem Stage.IsOpen.idle : Stage.idle.IsOpen := trivial

theorem Stage.IsOpen.mayVote {justify : PhaseCertificate} {block : CryptoHash} {phase : Phase} :
    (Stage.mayVote justify block phase).IsOpen := trivial

structure State where
  tree : BlockTree
  view : ViewNumber
  stage : Stage

/-- One event of a replica, as the handlers may produce it.  What the replica keeps
in memory beyond its view is left open, and so is the message it answers. -/
inductive Step (cr : Crypto) (config : Configuration) (apps : App → Prop) :
    State → Event → State → Prop
  | act {s v st a} (ha : a.phaseVote? = none) :
    Step cr config apps ⟨s, v, st⟩ (.effect (.act a)) ⟨s, v, st⟩
  | insert {s v st block appStateUpdates validatorSetUpdates app} (hst : st.IsOpen)
      (hcorrect : block.isCorrect cr s = .ok true)
      (hsafe : s.safeBlock block config.chainId = .ok true)
      (happ : apps app) (hvalid : app.Validates block appStateUpdates validatorSetUpdates) :
    Step cr config apps ⟨s, v, st⟩
      (.effect (.write (s.insertBatch block appStateUpdates validatorSetUpdates)))
      ⟨s.insert block appStateUpdates validatorSetUpdates, v,
        .inserted block (if validatorSetUpdates.isSome then .prepare else .generic)⟩
  | updateInserted {s v block phase fuel wb updates}
      (hupdate : s.updateBatch fuel block.justify = .ok (wb, updates)) :
    Step cr config apps ⟨s, v, .inserted block phase⟩ (.effect (.write wb))
      ⟨s.write wb, v, .mayVote block.justify block.hash phase⟩
  | nudge {s v st nudge phase fuel wb updates} (hst : st.IsOpen)
      (hcorrect : nudge.justify.isCorrect cr s = .ok true)
      (hsafe : s.safeNudge nudge v config.chainId = .ok true)
      (hphase : HotStuff.nudgedPhase nudge.justify.phase = .ok phase)
      (hupdate : s.updateBatch fuel nudge.justify = .ok (wb, updates)) :
    Step cr config apps ⟨s, v, st⟩ (.effect (.write wb))
      ⟨s.write wb, v, .mayVote nudge.justify nudge.justify.block phase⟩
  | accept {s v st pc fuel wb updates} (hst : st.IsOpen)
      (hcorrect : pc.isCorrect cr s = .ok true)
      (hsafe : s.safePc pc config.chainId = .ok true)
      (hupdate : s.updateBatch fuel pc = .ok (wb, updates)) :
    Step cr config apps ⟨s, v, st⟩ (.effect (.write wb)) ⟨s.write wb, v, .idle⟩
  | vote {s v justify block phase vss recipient} (hvss : s.kv.validatorSetState = .ok vss)
      (hvoter : isPhaseVoter config.me vss justify = true)
      (hfirst : (s .highestViewPhaseVoted).all (· < v) = true) :
    Step cr config apps ⟨s, v, .mayVote justify block phase⟩
      (.effect (.act (.send recipient (.progress (.hotStuff (.phaseVote
        (PhaseVote.new cr config.me config.chainId v block phase)))))))
      ⟨s, v, .voted⟩
  | record {s v} :
    Step cr config apps ⟨s, v, .voted⟩
      (.effect (.write (WriteBatch.setHighestViewPhaseVoted v)))
      ⟨s.write (WriteBatch.setHighestViewPhaseVoted v), v, .idle⟩
  | setHighestTc {s v st tc} (hst : st.IsOpen)
      (hhigher : (s .highestTc).all (fun highest => highest.view < tc.view) = true) :
    Step cr config apps ⟨s, v, st⟩ (.effect (.write (WriteBatch.setHighestTc tc)))
      ⟨s.write (WriteBatch.setHighestTc tc), v, .idle⟩
  | enterView {s v v' st} (hst : st.IsOpen) (hv : v < v') :
    Step cr config apps ⟨s, v, st⟩ (.effect (.write (WriteBatch.setHighestViewEntered v')))
      ⟨s.write (WriteBatch.setHighestViewEntered v'), v', .idle⟩
  | crash {s v v' st} (hview : Algorithm.initView s = .ok v') :
    Step cr config apps ⟨s, v, st⟩ .crash ⟨s, v', .idle⟩

/-- The tree of a state is the one its events leave. -/
theorem Step.tree_eq {cr : Crypto} {config : Configuration} {apps : App → Prop} {a b : State}
    {e : Event} (h : Step cr config apps a e b) : b.tree = a.tree.perform e := by
  cases h <;> rfl

theorem path_tree {cr : Crypto} {config : Configuration} {apps : App → Prop} {a b : State}
    {log : List Event} (h : Lts.Path (Step cr config apps) a log b) :
    b.tree = a.tree.replay log :=
  h.foldl_eq State.tree fun _ _ _ => Step.tree_eq

end Protocol
end HotStuffRs
