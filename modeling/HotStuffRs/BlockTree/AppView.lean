import HotStuffRs.BlockTree.CommitEach

/-
The app state that an App sees before a block is committed.

`appState` searches the pending updates of the uncommitted ancestors from the newest on,
and `commit` replays them from the oldest on.  Both come down to the newest block that
says something about the key.
-/

namespace HotStuffRs

open Kv

/-- What the updates do with `key`: nothing, or delete it, or give it a value.  A key that is
both inserted and deleted is deleted. -/
def AppStateUpdates.effect? (updates : AppStateUpdates) (key : List Byte) :
    Option (Option (List Byte)) :=
  if updates.containsDelete key then some none else (updates.getInsert key).map some

/-- The parent that the App is told of. -/
def Block.parent? (block : Block) : Option CryptoHash :=
  if block.justify.isGenesisPc then none else some block.justify.block

namespace Kv

variable {K : Type} {V : K → Type} [DecidableEq K]

theorem Batch.result?_append (a b : Batch V) (k : K) :
    Batch.result? k (a ++ b) = (Batch.result? k b).or (Batch.result? k a) := by
  induction a with
  | nil => simp [Batch.result?]
  | cons o a ih =>
    rw [List.cons_append, Batch.result?, ih, Batch.result?]
    cases Batch.result? k b with
    | some r => rfl
    | none => rfl

/-- Of several batches the last one that says something about a key decides. -/
theorem Batch.result?_flatten (bs : List (Batch V)) (k : K) :
    Batch.result? k bs.flatten = bs.reverse.findSome? (Batch.result? k) := by
  induction bs with
  | nil => rfl
  | cons b bs ih =>
    rw [List.flatten_cons, Batch.result?_append, ih, List.reverse_cons, List.findSome?_append]
    cases bs.reverse.findSome? (Batch.result? k) with
    | some r => rfl
    | none =>
      rw [List.findSome?_cons]
      cases Batch.result? k b <;> rfl

end Kv

/-! ## One block's updates -/

section

variable {updates : AppStateUpdates} {key : List Byte}

theorem result?_inserts :
    Batch.result? (Var.committedAppState key) (updates.inserts.toList.map fun (key, value) =>
      (.set (.committedAppState key) value : Op Var.Val)) = (updates.getInsert key).map some := by
  cases hget : updates.getInsert key with
  | none =>
    apply Batch.result?_eq_none.mpr
    intro o ho hkey
    obtain ⟨⟨key', value⟩, hmem, rfl⟩ := List.mem_map.mp ho
    obtain rfl : key' = key := Var.committedAppState.inj hkey
    have hsome : updates.getInsert key' = some value :=
      Std.ExtTreeMap.mem_toList_iff_getElem?_eq_some.mp hmem
    cases hget.symm.trans hsome
  | some value =>
    have hmem : (key, value) ∈ updates.inserts.toList :=
      Std.ExtTreeMap.mem_toList_iff_getElem?_eq_some.mpr hget
    refine Batch.result?_of_unique (o := (.set (Var.committedAppState key) value : Op Var.Val)) ?_ ?_
    · exact List.mem_map.mpr ⟨(key, value), hmem, rfl⟩
    intro o ho hkey
    obtain ⟨⟨key', value'⟩, hmem', rfl⟩ := List.mem_map.mp ho
    obtain rfl : key' = key := Var.committedAppState.inj hkey
    have hsome : updates.getInsert key' = some value' :=
      Std.ExtTreeMap.mem_toList_iff_getElem?_eq_some.mp hmem'
    obtain rfl : value = value' := Option.some.inj (hget.symm.trans hsome)
    rfl

theorem result?_deletes :
    Batch.result? (Var.committedAppState key) (updates.deletes.toList.map fun key =>
      (.delete (.committedAppState key) : Op Var.Val)) =
        if updates.containsDelete key then some none else none := by
  by_cases hdelete : updates.containsDelete key = true
  · have hmem : key ∈ updates.deletes.toList :=
      Std.ExtTreeSet.mem_toList.mpr (Std.ExtTreeSet.contains_iff_mem.mp hdelete)
    rw [if_pos hdelete]
    refine Batch.result?_of_unique (o := .delete (Var.committedAppState key))
      (List.mem_map.mpr ⟨_, hmem, rfl⟩) ?_
    intro o ho hkey
    obtain ⟨key', -, rfl⟩ := List.mem_map.mp ho
    obtain rfl : key' = key := Var.committedAppState.inj hkey
    rfl
  · rw [if_neg hdelete]
    apply Batch.result?_eq_none.mpr
    intro o ho hkey
    obtain ⟨key', hmem, rfl⟩ := List.mem_map.mp ho
    obtain rfl : key' = key := Var.committedAppState.inj hkey
    exact hdelete (Std.ExtTreeSet.contains_iff_mem.mpr (Std.ExtTreeSet.mem_toList.mp hmem))

/-- The batch has the insertions first, so that a deletion of the same key wins. -/
theorem result?_applyAppStateUpdates :
    Batch.result? (Var.committedAppState key) (WriteBatch.applyAppStateUpdates updates) =
      updates.effect? key := by
  rw [WriteBatch.applyAppStateUpdates, Batch.result?_append, result?_inserts, result?_deletes,
    AppStateUpdates.effect?]
  split <;> rfl

end

namespace BlockTree

/-! ## Reading the app state through a view -/

namespace AppBlockTreeView

/-- The value of `key` as of the newest ancestor whose updates touch it. -/
def appState (view : AppBlockTreeView) (key : List Byte) : Option (List Byte) :=
  let latestKeyUpdate := view.pendingAncestorsAppStateUpdates.find? fun updates? =>
    match updates? with
    | some updates => updates.containsDelete key || (updates.getInsert key).isSome
    | none => false
  match latestKeyUpdate with
  | some (some updates) =>
    if updates.containsDelete key then none
    else match updates.getInsert key with
      | some value => some value
      | none => view.blockTree.kv.committedAppState key
  | _ => view.blockTree.kv.committedAppState key

theorem appState_eq (view : AppBlockTreeView) (key : List Byte) :
    view.appState key =
      (view.pendingAncestorsAppStateUpdates.findSome? fun updates? =>
        updates?.bind (·.effect? key)).getD (view.blockTree.kv.committedAppState key) := by
  unfold appState
  induction view.pendingAncestorsAppStateUpdates with
  | nil => rfl
  | cons updates? rest ih =>
    cases updates? with
    | none => exact ih
    | some updates =>
      rw [List.find?_cons, List.findSome?_cons, Option.bind_some, AppStateUpdates.effect?]
      by_cases hdelete : updates.containsDelete key = true
      · simp [hdelete]
      · cases hinsert : updates.getInsert key with
        | some value => simp [hdelete, hinsert]
        | none =>
          simp only [hdelete, hinsert]
          exact ih

end AppBlockTreeView

/-! ## The walk of a view -/

variable {s : BlockTree} {p : CryptoHash} {us : List CryptoHash}

/-- The justify links from `p` lead through stored blocks down to the highest committed block
or to one with the Genesis PC. -/
inductive LeadsDown (s : BlockTree) : CryptoHash → Prop
  | committed {p height} (hp : s .highestCommittedBlock = some p)
      (hheight : s (.blockHeight p) = some height) : LeadsDown s p
  | genesis {p height} (hheight : s (.blockHeight p) = some height)
      (hjustify : s (.blockJustify p) = some .genesisPc) : LeadsDown s p
  | link {p q height} (hheight : s (.blockHeight p) = some height) (hparent : s.parent p = some q)
      (rest : LeadsDown s q) : LeadsDown s p

namespace LeadsDown

theorem exists_height (h : LeadsDown s p) : ∃ height, s (.blockHeight p) = some height := by
  cases h with
  | committed _ hheight => exact ⟨_, hheight⟩
  | genesis hheight _ => exact ⟨_, hheight⟩
  | link hheight _ _ => exact ⟨_, hheight⟩

/-- A step of the walk, or its end at a block that is not above the highest committed one. -/
theorem step_or_stop {minHeight : Option BlockHeight} {height : BlockHeight}
    (hheight : s (.blockHeight p) = some height)
    (hrest : ∃ us, Walk s minHeight (s.parent p) us ∧
      ∀ b ∈ us, ∃ height, s (.blockHeight b) = some height) :
    ∃ us, Walk s minHeight (some p) us ∧ ∀ b ∈ us, ∃ height, s (.blockHeight b) = some height := by
  by_cases habove : ∀ min ∈ minHeight, min < height
  · obtain ⟨us, hwalk, hus⟩ := hrest
    refine ⟨p :: us, .step (fun min hmin => ⟨height, hheight, habove min hmin⟩) hwalk, ?_⟩
    intro b hb
    rcases List.mem_cons.mp hb with rfl | hb
    · exact ⟨height, hheight⟩
    · exact hus b hb
  · simp only [not_forall] at habove
    obtain ⟨min, hmin, hle⟩ := habove
    exact ⟨[], .stop hmin hheight (not_lt.mp hle), fun b hb => by cases hb⟩

theorem exists_walk (h : LeadsDown s p) :
    ∃ us, Walk s s.committedHeight (some p) us ∧
      ∀ b ∈ us, ∃ height, s (.blockHeight b) = some height := by
  induction h with
  | @committed p height hp hheight =>
    have hmin : s.committedHeight = some height := by
      rw [committedHeight, hp, Option.bind_some, hheight]
    exact ⟨[], .stop hmin hheight le_rfl, fun b hb => by cases hb⟩
  | @genesis p height hheight hjustify =>
    apply step_or_stop hheight
    have hparent : s.parent p = none := by
      rw [BlockTree.parent, hjustify]
      rfl
    rw [hparent]
    exact ⟨[], .root, fun b hb => by cases hb⟩
  | @link p q height hheight hparent rest ih =>
    apply step_or_stop hheight
    rw [hparent]
    exact ih

end LeadsDown

/-- Over a walk of stored blocks the two iterators of `app_view` stay side by side. -/
theorem ancestorsAbove_of_walk {minHeight : Option BlockHeight} {cursor : Option CryptoHash}
    (h : Walk s minHeight cursor us) (hus : ∀ b ∈ us, ∃ height, s (.blockHeight b) = some height)
    {fuel : Nat} (hfuel : us.length < fuel) : ancestorsAbove s minHeight fuel cursor cursor = .ok us := by
  induction h generalizing fuel with
  | root => cases fuel <;> rfl
  | @stop b height min hmin hb hle =>
    obtain ⟨fuel, rfl⟩ := Nat.exists_eq_succ_of_ne_zero (Nat.ne_of_gt hfuel)
    simp [ancestorsAbove, nextHeight, hmin, hb, not_lt.mpr hle]
  | @step b us habove rest ih =>
    obtain ⟨fuel, rfl⟩ := Nat.exists_eq_succ_of_ne_zero (Nat.ne_of_gt (Nat.zero_lt_of_lt hfuel))
    have hrest := ih (fun b hb => hus b (List.mem_cons_of_mem _ hb)) (Nat.lt_of_succ_lt_succ hfuel)
    obtain ⟨height, hheight⟩ := hus b List.mem_cons_self
    have hmin : minHeight.all (· < height) = true := by
      cases hm : minHeight with
      | none => rfl
      | some min =>
        obtain ⟨height', hheight', hlt⟩ := habove min hm
        obtain rfl : height = height' := Option.some.inj (hheight.symm.trans hheight')
        simpa using hlt
    simp [ancestorsAbove, nextHeight, hheight, hmin, hrest]

theorem appView_of_walk (h : Walk s s.committedHeight (some p) us)
    (hus : ∀ b ∈ us, ∃ height, s (.blockHeight b) = some height) :
    Result.Eventually (fun fuel => appView s fuel (some p))
      ⟨s, us.map fun b => s (.pendingAppStateUpdates b)⟩ := by
  refine ⟨us.length + 1, fun fuel hfuel => ?_⟩
  have hancestors := ancestorsAbove_of_walk h hus (show us.length < fuel by omega)
  simp only [appView, kv_highestCommittedBlockHeight, Result.ok_bind, hancestors,
    kv_pendingAppStateUpdates, Result.ok?_ok, Result.pure_eq]
  rw [List.filterMap_eq_map']

/-! ## What a commit does to the app state -/

theorem result?_commitAppStateUpdates {b : CryptoHash} {wb : WriteBatch} {key : List Byte}
    (h : commitAppStateUpdates s b = .ok wb) :
    Batch.result? (Var.committedAppState key) wb =
      (s (.pendingAppStateUpdates b)).bind (·.effect? key) := by
  simp only [commitAppStateUpdates, kv_pendingAppStateUpdates, Result.ok_bind] at h
  cases hpending : s (.pendingAppStateUpdates b) with
  | none =>
    obtain rfl : [] = wb := by simpa [hpending] using h
    rfl
  | some updates =>
    simp only [hpending, Result.pure_eq, Except.ok.injEq] at h
    rw [← h, Batch.result?_append, result?_applyAppStateUpdates]
    have hdelete : Batch.result? (Var.committedAppState key)
        (WriteBatch.deletePendingAppStateUpdates b) = none := by
      simp [WriteBatch.deletePendingAppStateUpdates, Batch.result?]
    rw [hdelete]
    rfl

/-- The deletions of a commit are about blocks. -/
theorem block?_of_mem_deleteSiblings {fuel : Nat} {b : CryptoHash} {wb : WriteBatch}
    (h : deleteSiblings s fuel b = .ok wb) {o : Op Var.Val} (ho : o ∈ wb) :
    o.key.block?.isSome = true := by
  rcases cases_of_mem_deleteSiblings h ho with ⟨-, hblock⟩ | ⟨p, hp⟩
  · exact hblock
  · rw [hp]
    rfl

/-- A round touches the app state as the pending updates of its block say. -/
theorem result?_commitBlock {fuel : Nat} {target b : CryptoHash}
    {round : WriteBatch × CryptoHash × Option ValidatorSetUpdates} {key : List Byte}
    (h : commitBlock s fuel target b = .ok round) :
    Batch.result? (Var.committedAppState key) round.1 =
      (s (.pendingAppStateUpdates b)).bind (·.effect? key) := by
  obtain ⟨height, siblings, appState, validatorSet, updates, -, hsiblings, happState,
    hvalidatorSet, rfl⟩ := of_commitBlock h
  have hheight : Batch.result? (Var.committedAppState key)
      (WriteBatch.setBlockAtHeight height b) = none := by
    simp [WriteBatch.setBlockAtHeight, Batch.result?]
  have hprune : Batch.result? (Var.committedAppState key) siblings = none := by
    apply Batch.result?_eq_none.mpr
    intro o ho hkey
    have hblock := block?_of_mem_deleteSiblings hsiblings ho
    rw [hkey] at hblock
    cases hblock
  have hvs : Batch.result? (Var.committedAppState key) validatorSet = none := by
    apply Batch.result?_eq_none.mpr
    intro o ho hkey
    obtain ⟨_, _, -, -, ho⟩ := (mem_commitValidatorSetUpdates hvalidatorSet).mp ho
    have hkeys := key_of_mem_validatorSetOps ho
    simp [hkey] at hkeys
  have hhighest : Batch.result? (Var.committedAppState key)
      (WriteBatch.setHighestCommittedBlock b) = none := by
    simp [WriteBatch.setHighestCommittedBlock, Batch.result?]
  simp only [Batch.result?_append, hheight, hprune, hvs, hhighest,
    result?_commitAppStateUpdates happState, Option.none_or, Option.or_none]

theorem result?_rounds {fuel : Nat} {target : CryptoHash} {key : List Byte}
    {rounds : List (WriteBatch × CryptoHash × Option ValidatorSetUpdates)}
    (h : us.mapM (commitBlock s fuel target) = .ok rounds) :
    (rounds.map fun round => Batch.result? (Var.committedAppState key) round.1) =
      us.map fun b => (s (.pendingAppStateUpdates b)).bind (·.effect? key) := by
  induction us generalizing rounds with
  | nil =>
    obtain rfl : [] = rounds := by simpa using h
    rfl
  | cons b us ih =>
    obtain ⟨round, rest, hround, hrest, rfl⟩ := Result.mapM_cons_eq_ok.mp h
    rw [List.map_cons, List.map_cons, ih hrest, result?_commitBlock hround]

/-- The newest block of the commit that says something about a key decides. -/
theorem result?_commit {fuel : Nat} {wb : WriteBatch} {key : List Byte}
    {committed : List (CryptoHash × Option ValidatorSetUpdates)}
    (hwalk : Walk s s.committedHeight (some p) us) (h : commit s fuel p = .ok (wb, committed)) :
    Batch.result? (Var.committedAppState key) wb =
      us.findSome? fun b => (s (.pendingAppStateUpdates b)).bind (·.effect? key) := by
  simp only [commit, kv_highestCommittedBlockHeight, Result.ok_bind, Result.bind_eq_ok,
    Result.pure_eq, Except.ok.injEq, Prod.mk.injEq] at h
  obtain ⟨us', hus', rounds, hrounds, rfl, -⟩ := h
  obtain rfl : us = us' := hwalk.unique (walk_of_uncommittedFrom hus')
  have hresults : (rounds.map fun round => Batch.result? (Var.committedAppState key) round.1) =
      us.reverse.map fun b => (s (.pendingAppStateUpdates b)).bind (·.effect? key) :=
    result?_rounds hrounds
  calc Batch.result? (Var.committedAppState key) (rounds.flatMap Prod.fst)
      = (rounds.map fun round =>
          Batch.result? (Var.committedAppState key) round.1).reverse.findSome? id := by
        rw [List.flatMap_def, Batch.result?_flatten, ← List.map_reverse, ← List.map_reverse,
          List.findSome?_map, List.findSome?_map]
        rfl
    _ = (us.map fun b =>
          (s (.pendingAppStateUpdates b)).bind (·.effect? key)).findSome? id := by
        rw [hresults, ← List.map_reverse, List.reverse_reverse]
    _ = us.findSome? fun b => (s (.pendingAppStateUpdates b)).bind (·.effect? key) := by
        rw [List.findSome?_map]
        rfl

/-- The app state that a view of `p` shows is the one that is committed when `p` and its
uncommitted ancestors are, and is the current one if `p` is committed already.  In a
well-formed tree nothing keeps that commit from happening. -/
theorem appState_eq_committed (h : LeadsDown s p) :
    ∃ view, Result.Eventually (fun fuel => appView s fuel (some p)) view ∧
      (∀ key fuel wb committed, commit s fuel p = .ok (wb, committed) →
        view.appState key = (Store.write s wb).kv.committedAppState key) ∧
      (s .highestCommittedBlock = some p → ∀ key, view.appState key = s.kv.committedAppState key) ∧
      (s.WellFormed → (s .committedValidatorSet).isSome = true →
        ∃ result, Result.Eventually (fun fuel => commit s fuel p) result) := by
  obtain ⟨us, hwalk, hus⟩ := h.exists_walk
  refine ⟨_, appView_of_walk hwalk hus, ?_, ?_, ?_⟩
  · intro key fuel wb committed hcommit
    have hcommitted : ∀ s : BlockTree, s.kv.committedAppState key = s (.committedAppState key) :=
      fun s => by simp [KVGet.committedAppState, Kv.Store.kv]
    rw [AppBlockTreeView.appState_eq, hcommitted, hcommitted, Store.write_eq,
      result?_commit hwalk hcommit, List.findSome?_map]
    rfl
  · intro hp key
    obtain ⟨height, hheight⟩ := h.exists_height
    have hmin : s.committedHeight = some height := by
      rw [committedHeight, hp, Option.bind_some, hheight]
    obtain rfl : us = [] := hwalk.unique (.stop hmin hheight le_rfl)
    rw [AppBlockTreeView.appState_eq]
    rfl
  · intro wf hvs
    have hrounds : ∃ rounds, Result.Eventually
        (fun fuel => us.reverse.mapM (commitBlock s fuel p)) rounds := by
      apply Result.Eventually.mapM
      intro b hb
      obtain ⟨height, hheight⟩ := hus b (List.mem_reverse.mp hb)
      exact eventually_commitBlock wf hvs (wf.stored_of_height hheight) p
    obtain ⟨rounds, hrounds⟩ := hrounds
    exact ⟨_, eventually_commit hwalk hrounds⟩

/-! Two blocks whose updates overlap: the second deletes one key of the first and overwrites
the other. -/

def overlapping : BlockTree :=
  ((initial UpdateSet.new ⟨ValidatorSet.new.put 1 1, ValidatorSet.new.put 1 1, none, true⟩).insert
    ⟨0, 1, .genesisPc, 0, []⟩ (some ((UpdateSet.new.insert [1] [7]).insert [2] [8])) none).insert
    ⟨1, 2, ⟨7, 1, 1, .generic, []⟩, 0, []⟩ (some ((UpdateSet.new.insert [2] [9]).delete [1])) none

theorem leadsDown_overlapping : LeadsDown overlapping 2 := by
  have hheight₁ : overlapping (.blockHeight 1) = some 0 := by decide +kernel
  have hheight₂ : overlapping (.blockHeight 2) = some 1 := by decide +kernel
  have hparent : overlapping.parent 2 = some 1 := by decide +kernel
  exact .link hheight₂ hparent (.genesis hheight₁ (by decide +kernel))

theorem appState_eq_committed_overlapping :
    ∃ view, Result.Eventually (fun fuel => appView overlapping fuel (some 2)) view ∧
      view.appState [1] = none ∧ view.appState [2] = some [9] := by
  obtain ⟨view, hview, hcommit, -⟩ := appState_eq_committed leadsDown_overlapping
  have hvalues : (Result.ok? (commit overlapping 10 2)).map (fun result =>
      [(Store.write overlapping result.1).kv.committedAppState [1],
        (Store.write overlapping result.1).kv.committedAppState [2]]) =
          some [none, some [9]] := by
    decide +kernel
  obtain ⟨⟨wb, committed⟩, hok, hvalues⟩ := Option.map_eq_some_iff.mp hvalues
  obtain ⟨hone, htwo⟩ := List.cons.inj hvalues
  refine ⟨view, hview, ?_, ?_⟩
  · rw [hcommit [1] 10 wb committed (Result.ok?_eq_some.mp hok)]
    exact hone
  · rw [hcommit [2] 10 wb committed (Result.ok?_eq_some.mp hok)]
    exact (List.cons.inj htwo).1

end BlockTree

end HotStuffRs
