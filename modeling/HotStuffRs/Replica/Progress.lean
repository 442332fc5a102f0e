import HotStuffRs.Replica.Votes

/-
Persisted progress.

The setters overwrite what is there.  Each caller has compared what it sets with something
else: `update` and the pacemaker with what is stored, the entering of a view with the view
in memory, the recording of a vote with the view that the replica has just voted in.
-/

namespace HotStuffRs

open Kv Lts

variable {cr : Crypto} {config : Configuration} {apps : App → Prop}

/-! ## Options that only grow -/

/-- `o'` is not below `o` by `f`, where a missing value is below all others. -/
def NoLower {α : Type} (f : α → ViewNumber) (o o' : Option α) : Prop :=
  ∀ x ∈ o, ∃ x' ∈ o', f x ≤ f x'

namespace NoLower

variable {α : Type} {f : α → ViewNumber} {o o' o'' : Option α}

theorem of_eq (h : o' = o) : NoLower f o o' := fun x hx => ⟨x, h ▸ hx, le_rfl⟩

theorem trans (h : NoLower f o o') (h' : NoLower f o' o'') : NoLower f o o'' := by
  intro x hx
  obtain ⟨x', hx', hle⟩ := h x hx
  obtain ⟨x'', hx'', hle'⟩ := h' x' hx'
  exact ⟨x'', hx'', hle.trans hle'⟩

/-- A value that is set after it was found to be higher. -/
theorem of_lt {x : α} (h : o.all (fun y => f y < f x) = true) : NoLower f o (some x) := by
  intro y hy
  rw [Option.mem_def.mp hy] at h
  exact ⟨x, rfl, (of_decide_eq_true h).le⟩

end NoLower

namespace BlockTree

/-- From `s` to `s'` no view that the replica has progressed to goes back. -/
structure NeverBack (s s' : BlockTree) : Prop where
  highestPc : NoLower PhaseCertificate.view (s .highestPc) (s' .highestPc)
  highestTc : NoLower TimeoutCertificate.view (s .highestTc) (s' .highestTc)
  entered : NoLower id (s .highestViewEntered) (s' .highestViewEntered)
  voted : NoLower id (s .highestViewPhaseVoted) (s' .highestViewPhaseVoted)

namespace NeverBack

variable {s s' s'' : BlockTree}

protected theorem refl (s : BlockTree) : NeverBack s s :=
  ⟨.of_eq rfl, .of_eq rfl, .of_eq rfl, .of_eq rfl⟩

theorem trans (h : NeverBack s s') (h' : NeverBack s' s'') : NeverBack s s'' where
  highestPc := h.highestPc.trans h'.highestPc
  highestTc := h.highestTc.trans h'.highestTc
  entered := h.entered.trans h'.entered
  voted := h.voted.trans h'.voted

theorem insert {block : Block} {appStateUpdates : Option AppStateUpdates}
    {validatorSetUpdates : Option ValidatorSetUpdates} :
    NeverBack s (s.insert block appStateUpdates validatorSetUpdates) where
  highestPc := .of_eq (insert_of_block?_eq_none rfl (by simp))
  highestTc := .of_eq (insert_of_block?_eq_none rfl (by simp))
  entered := .of_eq (insert_of_block?_eq_none rfl (by simp))
  voted := .of_eq (insert_of_block?_eq_none rfl (by simp))

theorem update {justify : PhaseCertificate} {fuel : Nat} {wb : WriteBatch}
    {updates : Option ValidatorSetUpdates} (h : s.updateBatch fuel justify = .ok (wb, updates)) :
    NeverBack s (s.write wb) where
  highestPc := (progressKept_update h).pc
  highestTc := .of_eq (write_update_of_isProgress h rfl (by simp) (by simp))
  entered := (progressKept_update h).entered
  voted := .of_eq (write_update_of_isProgress h rfl (by simp) (by simp))

end NeverBack
end BlockTree

namespace Protocol

open BlockTree

/-! ## What the guards leave open -/

/-- What a replica in view `v` knows without reading it: the last view that it has entered
is not above `v`, and a vote in `v` is only ever the first one. -/
structure UpToView (s : BlockTree) (v : ViewNumber) (st : Stage) : Prop where
  entered : ∀ entered, s .highestViewEntered = some entered → entered ≤ v
  voted : st = .voted → (s .highestViewPhaseVoted).all (· < v) = true

namespace UpToView

variable {s s' : BlockTree} {v v' : ViewNumber} {st st' : Stage}

/-- The view that a replica starts in is read from its tree. -/
theorem init (h : Algorithm.initView s = .ok v) : UpToView s v .idle :=
  ⟨(VotesInOrder.init h).entered, nofun⟩

/-- Nothing is entered, and no vote is sent. -/
theorem go (h : UpToView s v st) (hst' : st' ≠ .voted)
    (hentered : s' .highestViewEntered = s .highestViewEntered) : UpToView s' v st' :=
  ⟨fun entered h' => h.entered entered (hentered ▸ h'), fun hvoted => (hst' hvoted).elim⟩

theorem update (h : UpToView s v st) (hst' : st' ≠ .voted) {justify : PhaseCertificate}
    {fuel : Nat} {wb : WriteBatch} {updates : Option ValidatorSetUpdates}
    (hupdate : s.updateBatch fuel justify = .ok (wb, updates)) : UpToView (s.write wb) v st' :=
  h.go hst' (write_update_of_isProgress hupdate rfl (by simp) (by simp))

theorem record (h : UpToView s v .voted) :
    UpToView (s.write (WriteBatch.setHighestViewPhaseVoted v)) v .idle ∧
      NeverBack s (s.write (WriteBatch.setHighestViewPhaseVoted v)) := by
  have hkept : ∀ x : Var, x ≠ .highestViewPhaseVoted →
      s.write (WriteBatch.setHighestViewPhaseVoted v) x = s x := fun _ hne => Store.apply_of_ne s hne
  have hwrite : s.write (WriteBatch.setHighestViewPhaseVoted v) .highestViewPhaseVoted = some v :=
    Store.apply_set s .highestViewPhaseVoted v
  refine ⟨h.go nofun (hkept _ (by simp)), .of_eq (hkept _ (by simp)), .of_eq (hkept _ (by simp)),
    .of_eq (hkept _ (by simp)), ?_⟩
  rw [hwrite]
  exact .of_lt (h.voted rfl)

theorem setHighestTc (h : UpToView s v st) {tc : TimeoutCertificate}
    (hhigher : (s .highestTc).all (fun highest => highest.view < tc.view) = true) :
    UpToView (s.write (WriteBatch.setHighestTc tc)) v .idle ∧
      NeverBack s (s.write (WriteBatch.setHighestTc tc)) := by
  have hkept : ∀ x : Var, x ≠ .highestTc → s.write (WriteBatch.setHighestTc tc) x = s x :=
    fun _ hne => Store.apply_of_ne s hne
  have hwrite : s.write (WriteBatch.setHighestTc tc) .highestTc = some tc :=
    Store.apply_set s .highestTc tc
  refine ⟨h.go nofun (hkept _ (by simp)), .of_eq (hkept _ (by simp)), ?_,
    .of_eq (hkept _ (by simp)), .of_eq (hkept _ (by simp))⟩
  rw [hwrite]
  exact .of_lt hhigher

theorem enterView (h : UpToView s v st) (hv : v < v') :
    UpToView (s.write (WriteBatch.setHighestViewEntered v')) v' .idle ∧
      NeverBack s (s.write (WriteBatch.setHighestViewEntered v')) := by
  have hkept : ∀ x : Var, x ≠ .highestViewEntered →
      s.write (WriteBatch.setHighestViewEntered v') x = s x := fun _ hne => Store.apply_of_ne s hne
  have hwrite : s.write (WriteBatch.setHighestViewEntered v') .highestViewEntered = some v' :=
    Store.apply_set s .highestViewEntered v'
  refine ⟨⟨fun entered h' => (Option.some.inj (hwrite.symm.trans h')).ge, nofun⟩,
    .of_eq (hkept _ (by simp)), .of_eq (hkept _ (by simp)), ?_, .of_eq (hkept _ (by simp))⟩
  rw [hwrite]
  intro entered hentered
  exact ⟨v', rfl, (h.entered entered hentered).trans hv.le⟩

theorem step {a b : State} {e : Event} (h : UpToView a.tree a.view a.stage)
    (hstep : Step cr config apps a e b) :
    UpToView b.tree b.view b.stage ∧ NeverBack a.tree b.tree := by
  have hopen : ∀ {st : Stage}, st.IsOpen → st ≠ .voted := by
    rintro _ hst rfl
    exact hst
  cases hstep with
  | act => exact ⟨h, .refl _⟩
  | insert => exact ⟨h.go nofun (insert_of_block?_eq_none rfl (by simp)), .insert⟩
  | updateInserted hupdate => exact ⟨h.update (hopen .mayVote) hupdate, .update hupdate⟩
  | nudge _ _ _ _ hupdate => exact ⟨h.update (hopen .mayVote) hupdate, .update hupdate⟩
  | accept _ _ _ hupdate => exact ⟨h.update (hopen .idle) hupdate, .update hupdate⟩
  | vote _ _ hfirst => exact ⟨⟨h.entered, fun _ => hfirst⟩, .refl _⟩
  | record => exact h.record
  | setHighestTc _ hhigher => exact h.setHighestTc hhigher
  | enterView _ hv => exact h.enterView hv
  | crash hview => exact ⟨init hview, .refl _⟩

theorem path {a b : State} {log : List Event} (h : UpToView a.tree a.view a.stage)
    (path : Path (Step cr config apps) a log b) :
    UpToView b.tree b.view b.stage ∧ NeverBack a.tree b.tree :=
  @Path.invariant _ _ _ (fun t => UpToView t.tree t.view t.stage ∧ NeverBack a.tree t.tree) _ _ _
    path ⟨h, .refl _⟩ fun _ _ _ hkept last => (hkept.1.step last).imp_right hkept.2.trans

end UpToView

/-- In every history of a replica, over crashes and restarts, the views of the highest
certificates, the highest view entered and the highest view voted in never go back. -/
theorem progress_never_back {appState : AppStateUpdates} {vss : ValidatorSetState}
    {log : List Event} (h : History cr config apps (initial appState vss) log)
    {log₁ log₂ : List Event} (hlog : log₁ ++ log₂ <+: log) :
    NeverBack ((initial appState vss).replay log₁)
      ((initial appState vss).replay (log₁ ++ log₂)) := by
  obtain ⟨v₀, b, hv₀, path, -⟩ := history_path h
  obtain ⟨rest, rfl⟩ := hlog
  obtain ⟨a₂, path, -⟩ := Path.append_iff.mp path
  obtain ⟨a₁, path₁, path₂⟩ := Path.append_iff.mp path
  have hkept := UpToView.path (UpToView.path (.init hv₀) path₁).1 path₂
  rw [← path_tree path, ← path_tree path₁]
  exact hkept.2

theorem progress_never_back_over_crash : ∃ effects effects',
    History Sample.crypto (Sample.configuration Sample.leader) (· = Sample.app) Sample.tree
      (crashBetween effects effects') ∧
    Sample.tree.replay (effects.map .effect) .highestViewPhaseVoted = some 0 ∧
    NeverBack (Sample.tree.replay (effects.map .effect))
      (Sample.tree.replay (effects.map .effect ++ (.crash :: effects'.map .effect))) := by
  obtain ⟨⟨effects, effects'⟩, haround, hvotes⟩ :=
    (Option.any_eq_true _ _).mp proposeTwice_recordsFirst
  simp only [recordsFirst, Bool.and_eq_true, beq_iff_eq] at hvotes
  have history : History Sample.crypto (Sample.configuration Sample.leader) (· = Sample.app)
      Sample.tree (crashBetween effects effects') := history_of_aroundCrash rfl rfl haround
  have hbetween : effects.map .effect ++ (.crash :: effects'.map .effect) =
      crashBetween effects effects' := by simp [crashBetween]
  refine ⟨effects, effects', history, ?_, progress_never_back history ?_⟩
  · rw [replay_effects]
    exact hvotes.1.2
  · rw [hbetween]

end Protocol
end HotStuffRs
