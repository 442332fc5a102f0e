import HotStuffRs.BlockTree.CommittedUpdates
import HotStuffRs.BlockTree.Initial
import HotStuffRs.Replica.Run

/-
What a run does to the block tree, when the view and the stage of the replica do not
matter: it inserts blocks, acts upon certificates, and notes its progress.
-/

namespace HotStuffRs
namespace Protocol

open Kv Lts

variable {cr : Crypto} {config : Configuration} {apps : App → Prop}

/-- The variables that the pacemaker and the voting code write. -/
def IsNote (v : Var) : Prop :=
  v = .highestViewEntered ∨ v = .highestTc ∨ v = .highestViewPhaseVoted

/-- One event of a replica, as its block tree sees it. -/
inductive TreeStep (cr : Crypto) (config : Configuration) (apps : App → Prop) (s : BlockTree) :
    Event → BlockTree → Prop
  | act (a : Action) : TreeStep cr config apps s (.effect (.act a)) s
  | crash : TreeStep cr config apps s .crash s
  | insert {block appStateUpdates validatorSetUpdates app}
      (hcorrect : block.isCorrect cr s = .ok true)
      (hsafe : s.safeBlock block config.chainId = .ok true)
      (happ : apps app) (hvalid : app.Validates block appStateUpdates validatorSetUpdates) :
    TreeStep cr config apps s
      (.effect (.write (s.insertBatch block appStateUpdates validatorSetUpdates)))
      (s.insert block appStateUpdates validatorSetUpdates)
  | update {justify fuel wb updates} (hupdate : s.updateBatch fuel justify = .ok (wb, updates)) :
    TreeStep cr config apps s (.effect (.write wb)) (s.write wb)
  | note {v x} (hv : IsNote v) :
    TreeStep cr config apps s (.effect (.write [.set v x])) (s.write [.set v x])

theorem Step.treeStep {a b : State} {e : Event} (h : Step cr config apps a e b) :
    TreeStep cr config apps a.tree e b.tree := by
  cases h with
  | act => exact .act _
  | insert _ hcorrect hsafe happ hvalid => exact .insert hcorrect hsafe happ hvalid
  | updateInserted hupdate => exact .update hupdate
  | nudge _ _ _ _ hupdate => exact .update hupdate
  | accept _ _ _ hupdate => exact .update hupdate
  | vote => exact .act _
  | record => exact .note (.inr (.inr rfl))
  | setHighestTc => exact .note (.inr (.inl rfl))
  | enterView => exact .note (.inl rfl)
  | crash => exact .crash

theorem TreeStep.tree_eq {s s' : BlockTree} {e : Event} (h : TreeStep cr config apps s e s') :
    s' = s.perform e := by
  cases h <;> rfl

theorem treePath_tree {s t : BlockTree} {log : List Event}
    (h : Path (TreeStep cr config apps) s log t) : t = s.replay log :=
  h.foldl_eq id fun _ _ _ => TreeStep.tree_eq

theorem history_treePath {s₀ : BlockTree} {log : List Event} (h : History cr config apps s₀ log) :
    Path (TreeStep cr config apps) s₀ log (s₀.replay log) := by
  obtain ⟨v₀, b, -, path, hb⟩ := history_path h
  rw [← hb]
  exact path.map State.tree fun _ _ _ => Step.treeStep

theorem treePath_of_prefix {s₀ : BlockTree} {log log' : List Event}
    (h : History cr config apps s₀ log) (hlog : log' <+: log) :
    Path (TreeStep cr config apps) s₀ log' (s₀.replay log') := by
  obtain ⟨rest, rfl⟩ := hlog
  obtain ⟨t, path, -⟩ := Path.append_iff.mp (history_treePath h)
  rwa [← treePath_tree path]

/-! ## Invariants of the tree -/

/-- Every block that `log` inserts meets `P` in the tree that it is inserted into. -/
def Inserted (s₀ : BlockTree) (P : BlockTree → Block → Option ValidatorSetUpdates → Prop)
    (log : List Event) : Prop :=
  ∀ before block appStateUpdates validatorSetUpdates,
    before ++ [.effect (.write ((s₀.replay before).insertBatch block appStateUpdates
      validatorSetUpdates))] <+: log → P (s₀.replay before) block validatorSetUpdates

theorem Inserted.of_prefix {s₀ : BlockTree}
    {P : BlockTree → Block → Option ValidatorSetUpdates → Prop} {log log' : List Event}
    (h : Inserted s₀ P log) (hlog : log' <+: log) : Inserted s₀ P log' :=
  fun before block appStateUpdates validatorSetUpdates hbefore =>
    h before block appStateUpdates validatorSetUpdates (hbefore.trans hlog)

/-- Whether every write of `log` passes a check on the tree that it is made to. -/
def checkLog (check : BlockTree → WriteBatch → Bool) (s : BlockTree) : List Event → Bool
  | [] => true
  | .effect (.write wb) :: log => check s wb && checkLog check (s.write wb) log
  | .effect (.act _) :: log | .crash :: log => checkLog check s log

theorem check_of_checkLog {check : BlockTree → WriteBatch → Bool} {s : BlockTree}
    {before log : List Event} {wb : WriteBatch} (h : checkLog check s log = true)
    (hlog : before ++ [.effect (.write wb)] <+: log) : check (s.replay before) wb = true := by
  obtain ⟨rest, rfl⟩ := hlog
  induction before generalizing s with
  | nil =>
    rw [List.nil_append, List.singleton_append, checkLog, Bool.and_eq_true] at h
    exact h.1
  | cons e before ih =>
    cases e with
    | crash => exact ih h
    | effect e =>
      cases e with
      | act a => exact ih h
      | write wb' =>
        rw [List.cons_append, List.cons_append, checkLog, Bool.and_eq_true] at h
        exact ih h.2

section invariant

variable {s₀ : BlockTree} {I : BlockTree → Prop}
  {P : BlockTree → Block → Option ValidatorSetUpdates → Prop} {log : List Event}

/-- What holds at first and is kept by the insertion of such blocks, by updates and by notes
holds of every tree that a path with no other insertions leads to. -/
theorem treePath_invariant {t : BlockTree} (path : Path (TreeStep cr config apps) s₀ log t)
    (hinserted : Inserted s₀ P log) (hs₀ : I s₀)
    (hinsert : ∀ {s block appStateUpdates validatorSetUpdates app}, I s →
      block.isCorrect cr s = .ok true → s.safeBlock block config.chainId = .ok true → apps app →
      app.Validates block appStateUpdates validatorSetUpdates → P s block validatorSetUpdates →
      I (s.insert block appStateUpdates validatorSetUpdates))
    (hupdate : ∀ {s justify fuel wb updates}, I s →
      s.updateBatch fuel justify = .ok (wb, updates) → I (s.write wb))
    (hnote : ∀ {s v x}, I s → IsNote v → I (s.write [.set v x])) : I t := by
  induction path with
  | nil => exact hs₀
  | @snoc log t e u path last ih =>
    have ht : t = s₀.replay log := treePath_tree path
    have hI := ih (hinserted.of_prefix (List.prefix_append ..))
    cases last with
    | act => exact hI
    | crash => exact hI
    | @insert block appStateUpdates validatorSetUpdates app hcorrect hsafe happ hvalid =>
      refine hinsert hI hcorrect hsafe happ hvalid ?_
      subst ht
      exact hinserted log block appStateUpdates validatorSetUpdates List.prefix_rfl
    | update hupdate' => exact hupdate hI hupdate'
    | note hv => exact hnote hI hv

theorem history_invariant (h : History cr config apps s₀ log) (hinserted : Inserted s₀ P log)
    (hs₀ : I s₀)
    (hinsert : ∀ {s block appStateUpdates validatorSetUpdates app}, I s →
      block.isCorrect cr s = .ok true → s.safeBlock block config.chainId = .ok true → apps app →
      app.Validates block appStateUpdates validatorSetUpdates → P s block validatorSetUpdates →
      I (s.insert block appStateUpdates validatorSetUpdates))
    (hupdate : ∀ {s justify fuel wb updates}, I s →
      s.updateBatch fuel justify = .ok (wb, updates) → I (s.write wb))
    (hnote : ∀ {s v x}, I s → IsNote v → I (s.write [.set v x])) : I (s₀.replay log) :=
  treePath_invariant (history_treePath h) hinserted hs₀ hinsert hupdate hnote

end invariant

/-- A note leaves the other variables alone. -/
theorem write_note {s : BlockTree} {v v' : Var} {x : v.Val} (hv : IsNote v) (hv' : ¬IsNote v') :
    s.write [.set v x] v' = s v' := by
  refine Store.apply_of_ne s fun hkey => hv' ?_
  rw [hkey]
  exact hv

/-- A note leaves the variables of blocks alone. -/
theorem block_note {s : BlockTree} {v v' : Var} {x : v.Val} {b : CryptoHash} (hv : IsNote v)
    (hv' : v'.block? = some b) : s.write [.set v x] v' = s v' := by
  refine write_note hv fun hnote => ?_
  rcases hnote with rfl | rfl | rfl <;> cases hv'

/-- A note commits nothing. -/
theorem committedBlocks_note {v : Var} {x : v.Val} (hv : IsNote v) :
    WriteBatch.committedBlocks [.set v x] = [] := by
  refine WriteBatch.committedBlocks_eq_nil fun o ho hkey => ?_
  obtain rfl := List.mem_singleton.mp ho
  rcases hv with rfl | rfl | rfl <;> cases hkey

end Protocol
end HotStuffRs
