import HotStuffRs.Types.Power
import Mathlib.Data.List.Induction

/-
The two fields of a validator set.

The source updates the key vector and the map of the powers one after the other, and finds its
way in the vector by binary search.  That they stay in step is proved here.
-/

namespace HotStuffRs

open Search

/-- A validator set as the source has it: two fields that its functions have to keep in step.
`K` is the type of the keys, in the order of their bytes. -/
structure RawValidatorSet (K : Type) [LinearOrder K] where
  validators : List K
  powers : HashMap K Power

namespace RawValidatorSet

variable {K : Type} [LinearOrder K]

instance transOrd : Std.TransOrd K := inferInstance

def new : RawValidatorSet K := { validators := [], powers := ∅ }

def contains (vs : RawValidatorSet K) (validator : K) : Bool := vs.powers.contains validator

/-- `put`.  The `unwrap_err` panics if the search finds a key that the map does not have. -/
def put (vs : RawValidatorSet K) (validator : K) (power : Power) : Result (RawValidatorSet K) := do
  let validators ←
    if vs.contains validator then pure vs.validators
    else match binarySearch vs.validators validator with
    | .ok _ => throw .panic
    | .error insertPos => pure (vs.validators.insertIdx insertPos validator)
  return { validators, powers := vs.powers.insert validator power }

/-- `remove`, with the entry that it returns. -/
def remove (vs : RawValidatorSet K) (validator : K) : RawValidatorSet K × Option (K × Power) :=
  match binarySearch vs.validators validator with
  | .ok pos =>
    ({ validators := vs.validators.eraseIdx pos, powers := vs.powers.erase validator },
      vs.powers[validator]?.map fun power => (validator, power))
  | .error _ => (vs, none)

/-- `apply_updates`, for the orders in which the hash map and the hash set of the updates are
iterated. -/
def applyUpdates (vs : RawValidatorSet K) (inserts : List (K × Power)) (deletes : List K) :
    Result (RawValidatorSet K) := do
  let vs ← inserts.foldlM (fun vs entry => vs.put entry.1 entry.2) vs
  return deletes.foldl (fun vs peer => (vs.remove peer).1) vs

def power (vs : RawValidatorSet K) (validator : K) : Option Power := vs.powers[validator]?

/-- `validators_and_powers`, whose `unwrap` panics if the map lacks a key of the vector. -/
def validatorsAndPowers (vs : RawValidatorSet K) : Result (List (K × Power)) :=
  vs.validators.mapM fun v => do
    let power ← Result.unwrap (vs.power v)
    return (v, power)

def len (vs : RawValidatorSet K) : Nat := vs.validators.length

def position (vs : RawValidatorSet K) (validator : K) : Option Nat :=
  match binarySearch vs.validators validator with
  | .ok pos => some pos
  | .error _ => none

/-- A call of one of the functions that change a validator set.  The orders in which
`apply_updates` iterates the updates can be any. -/
inductive Call (K : Type) [LinearOrder K]
  | put (validator : K) (power : Power)
  | remove (validator : K)
  | applyUpdates (updates : UpdateSet K Power) (inserts : List (K × Power)) (deletes : List K)
    (hinserts : inserts.Perm updates.inserts.toList)
    (hdeletes : deletes.Perm updates.deletes.toList)

def call (vs : RawValidatorSet K) : Call K → Result (RawValidatorSet K)
  | .put validator power => vs.put validator power
  | .remove validator => .ok (vs.remove validator).1
  | .applyUpdates _ inserts deletes _ _ => vs.applyUpdates inserts deletes

def run (vs : RawValidatorSet K) (calls : List (Call K)) : Result (RawValidatorSet K) :=
  calls.foldlM call vs

/-! ## The fields in step -/

/-- The key vector holds the keys of the map in ascending order. -/
structure Sound (vs : RawValidatorSet K) : Prop where
  ascending : vs.validators.Pairwise (· < ·)
  mem_powers : ∀ v, v ∈ vs.validators ↔ v ∈ vs.powers

variable {vs vs' : RawValidatorSet K}

theorem Sound.validators_eq (h : vs.Sound) : vs.validators = vs.powers.keys :=
  eq_keys h.ascending h.mem_powers

/-- The map of the powers determines the set. -/
theorem Sound.ext (h : vs.Sound) (h' : vs'.Sound) (hpowers : ∀ v, vs.power v = vs'.power v) :
    vs = vs' := by
  have heq : vs.powers = vs'.powers := Std.ExtTreeMap.ext_getElem? hpowers
  have hvalidators : vs.validators = vs'.validators := by
    rw [h.validators_eq, h'.validators_eq, heq]
  cases vs
  cases vs'
  cases heq
  cases hvalidators
  rfl

theorem contains_iff {v : K} : vs.contains v = true ↔ v ∈ vs.powers :=
  Std.ExtTreeMap.contains_iff_mem

theorem sound_new : (new : RawValidatorSet K).Sound where
  ascending := .nil
  mem_powers v := by
    show v ∈ [] ↔ v ∈ (∅ : HashMap K Power)
    rw [← Std.ExtTreeMap.contains_iff_mem, Std.ExtTreeMap.contains_empty]
    exact ⟨nofun, nofun⟩

/-- What `put` leaves. -/
def afterPut (vs : RawValidatorSet K) (validator : K) (power : Power) : RawValidatorSet K where
  validators :=
    if vs.contains validator then vs.validators
    else vs.validators.orderedInsert (· ≤ ·) validator
  powers := vs.powers.insert validator power

/-- What `remove` leaves. -/
def afterRemove (vs : RawValidatorSet K) (validator : K) : RawValidatorSet K where
  validators := vs.validators.erase validator
  powers := vs.powers.erase validator

theorem Sound.put_eq (h : vs.Sound) (v : K) (p : Power) : vs.put v p = .ok (vs.afterPut v p) := by
  unfold put afterPut
  by_cases hv : vs.contains v
  · rw [if_pos hv, if_pos hv]
    rfl
  · have hmem : v ∉ vs.validators := by
      rw [h.mem_powers, ← contains_iff]
      exact hv
    obtain ⟨pos, hpos, hwithin⟩ := exists_binarySearch_error h.ascending hmem
    rw [if_neg hv, if_neg hv, hpos, ← hwithin.insertIdx_eq_orderedInsert]
    rfl

theorem Sound.remove_eq (h : vs.Sound) (v : K) :
    vs.remove v = (vs.afterRemove v, (vs.power v).map fun p => (v, p)) := by
  unfold remove afterRemove
  by_cases hmem : v ∈ vs.validators
  · obtain ⟨pos, hpos⟩ := exists_binarySearch_ok h.ascending hmem
    have hget := (binarySearch_eq_ok h.ascending).mp hpos
    rw [hpos, ← eraseIdx_eq_erase h.ascending hget]
    rfl
  · obtain ⟨pos, hpos, -⟩ := exists_binarySearch_error h.ascending hmem
    have hpowers : v ∉ vs.powers := fun hv => hmem ((h.mem_powers v).mpr hv)
    have hnone : vs.power v = none := Std.ExtTreeMap.getElem?_eq_none hpowers
    have herase : vs.powers.erase v = vs.powers := by
      apply Std.ExtTreeMap.ext_getElem?
      intro v'
      rw [Std.ExtTreeMap.getElem?_erase]
      split
      · rename_i heq
        rw [Std.compare_eq_iff_eq] at heq
        exact heq ▸ hnone.symm
      · rfl
    rw [hpos, hnone, List.erase_of_not_mem hmem, herase]
    rfl

theorem Sound.afterPut (h : vs.Sound) (v : K) (p : Power) : (vs.afterPut v p).Sound where
  ascending := by
    unfold RawValidatorSet.afterPut
    dsimp only
    split
    · exact h.ascending
    · rename_i hv
      apply pairwise_orderedInsert h.ascending
      rw [h.mem_powers, ← contains_iff]
      exact hv
  mem_powers v' := by
    unfold RawValidatorSet.afterPut
    dsimp only
    rw [Std.ExtTreeMap.mem_insert, Std.compare_eq_iff_eq]
    split
    · rename_i hv
      rw [h.mem_powers]
      rw [contains_iff] at hv
      constructor
      · exact .inr
      · rintro (rfl | hv')
        · exact hv
        · exact hv'
    · rw [List.mem_orderedInsert, h.mem_powers, eq_comm]

theorem Sound.afterRemove (h : vs.Sound) (v : K) : (vs.afterRemove v).Sound where
  ascending := h.ascending.sublist List.erase_sublist
  mem_powers v' := by
    have hnodup : vs.validators.Nodup := h.ascending.imp fun hlt => ne_of_lt hlt
    unfold RawValidatorSet.afterRemove
    dsimp only
    rw [hnodup.mem_erase_iff, Std.ExtTreeMap.mem_erase, h.mem_powers]
    simp only [ne_eq, Std.compare_eq_iff_eq, @eq_comm _ v]

theorem power_afterPut (v v' : K) (p : Power) :
    (vs.afterPut v p).power v' = if v = v' then some p else vs.power v' := by
  unfold power afterPut
  rw [Std.ExtTreeMap.getElem?_insert]
  simp only [Std.compare_eq_iff_eq]

theorem power_afterRemove (v v' : K) :
    (vs.afterRemove v).power v' = if v = v' then none else vs.power v' := by
  unfold power afterRemove
  rw [Std.ExtTreeMap.getElem?_erase]
  simp only [Std.compare_eq_iff_eq]

/-! ## Updates -/

/-- The power that an update set leaves a validator with, whose power was `old`. -/
def updatedPower (updates : UpdateSet K Power) (v : K) (old : Option Power) : Option Power :=
  if v ∈ updates.deletes then none else updates.inserts[v]?.or old

/-- All inserts succeed, and each sets the power of its key. -/
theorem Sound.foldlM_put (h : vs.Sound) (inserts : List (K × Power))
    (hnodup : (inserts.map Prod.fst).Nodup) :
    ∃ vs', inserts.foldlM (fun vs entry => vs.put entry.1 entry.2) vs = .ok vs' ∧
      vs'.Sound ∧ (∀ v p, (v, p) ∈ inserts → vs'.power v = some p) ∧
      ∀ v, v ∉ inserts.map Prod.fst → vs'.power v = vs.power v := by
  induction inserts generalizing vs with
  | nil => exact ⟨vs, rfl, h, fun _ _ hmem => (by cases hmem), fun _ _ => rfl⟩
  | cons entry inserts ih =>
    obtain ⟨peer, newPower⟩ := entry
    rw [List.map_cons, List.nodup_cons] at hnodup
    obtain ⟨vs', hrun, hsound, hin, hout⟩ := ih (h.afterPut peer newPower) hnodup.2
    refine ⟨vs', ?_, hsound, ?_, ?_⟩
    · rw [List.foldlM_cons, h.put_eq, Result.ok_bind]
      exact hrun
    · intro v p hmem
      rcases List.mem_cons.mp hmem with heq | hmem
      · cases heq
        rw [hout peer hnodup.1, power_afterPut, if_pos rfl]
      · exact hin v p hmem
    · intro v hv
      rw [List.map_cons, List.mem_cons, not_or] at hv
      rw [hout v hv.2, power_afterPut, if_neg (Ne.symm hv.1)]

/-- A delete leaves no power to its key. -/
theorem Sound.foldl_remove (h : vs.Sound) (deletes : List K) :
    (deletes.foldl (fun vs peer => (vs.remove peer).1) vs).Sound ∧
      ∀ v, (deletes.foldl (fun vs peer => (vs.remove peer).1) vs).power v =
        if v ∈ deletes then none else vs.power v := by
  induction deletes generalizing vs with
  | nil => exact ⟨h, fun v => (if_neg List.not_mem_nil).symm⟩
  | cons peer deletes ih =>
    rw [List.foldl_cons, h.remove_eq]
    obtain ⟨hsound, hpower⟩ := ih (h.afterRemove peer)
    refine ⟨hsound, ?_⟩
    intro v
    rw [hpower, power_afterRemove]
    by_cases hmem : v ∈ deletes
    · rw [if_pos hmem, if_pos (List.mem_cons_of_mem peer hmem)]
    · rw [if_neg hmem]
      by_cases heq : peer = v
      · rw [if_pos heq, if_pos (heq ▸ List.mem_cons_self)]
      · rw [if_neg heq, if_neg fun hcons => (List.mem_cons.mp hcons).elim (Ne.symm heq) hmem]

/-- In whatever orders the updates are iterated, they leave each validator with the same power. -/
theorem Sound.applyUpdates_eq (h : vs.Sound) {updates : UpdateSet K Power}
    {inserts : List (K × Power)} {deletes : List K}
    (hinserts : inserts.Perm updates.inserts.toList)
    (hdeletes : deletes.Perm updates.deletes.toList) :
    ∃ vs', vs.applyUpdates inserts deletes = .ok vs' ∧ vs'.Sound ∧
      ∀ v, vs'.power v = updatedPower updates v (vs.power v) := by
  have hnodup : (inserts.map Prod.fst).Nodup := by
    rw [(hinserts.map Prod.fst).nodup_iff, Std.ExtTreeMap.map_fst_toList_eq_keys]
    exact Std.ExtTreeMap.nodup_keys
  obtain ⟨vs', hput, hsound, hin, hout⟩ := h.foldlM_put inserts hnodup
  obtain ⟨hsound', hpower⟩ := hsound.foldl_remove deletes
  refine ⟨_, ?_, hsound', ?_⟩
  · unfold applyUpdates
    rw [hput, Result.ok_bind]
    rfl
  · intro v
    have hmem : v ∈ deletes ↔ v ∈ updates.deletes := by
      rw [hdeletes.mem_iff, Std.ExtTreeSet.mem_toList]
    rw [hpower, updatedPower]
    simp only [hmem]
    split
    · rfl
    · cases hget : updates.inserts[v]? with
      | some p =>
        have hentry : (v, p) ∈ inserts :=
          hinserts.mem_iff.mpr (Std.ExtTreeMap.mem_toList_iff_getElem?_eq_some.mpr hget)
        exact hin v p hentry
      | none =>
        apply hout
        rw [(hinserts.map Prod.fst).mem_iff, Std.ExtTreeMap.map_fst_toList_eq_keys,
          Std.ExtTreeMap.mem_keys, Std.ExtTreeMap.mem_iff_isSome_getElem?, hget]
        exact Bool.false_ne_true

theorem Sound.call (h : vs.Sound) (c : Call K) : ∃ vs', vs.call c = .ok vs' ∧ vs'.Sound := by
  cases c with
  | put v p => exact ⟨_, h.put_eq v p, h.afterPut v p⟩
  | remove v =>
    refine ⟨vs.afterRemove v, ?_, h.afterRemove v⟩
    show Except.ok (vs.remove v).1 = _
    rw [h.remove_eq]
  | applyUpdates updates inserts deletes hinserts hdeletes =>
    obtain ⟨vs', happly, hsound, -⟩ := h.applyUpdates_eq hinserts hdeletes
    exact ⟨vs', happly, hsound⟩

theorem Sound.run (h : vs.Sound) (calls : List (Call K)) :
    ∃ vs', vs.run calls = .ok vs' ∧ vs'.Sound := by
  induction calls generalizing vs with
  | nil => exact ⟨vs, rfl, h⟩
  | cons c calls ih =>
    obtain ⟨vs', hcall, hsound⟩ := h.call c
    obtain ⟨vs'', hrun, hsound'⟩ := ih hsound
    refine ⟨vs'', ?_, hsound'⟩
    rw [RawValidatorSet.run, List.foldlM_cons, hcall, Result.ok_bind]
    exact hrun

/-- A call of one of the functions that fill an update set. -/
inductive UpdateCall (K : Type)
  | insert (key : K) (power : Power)
  | delete (key : K)

namespace UpdateCall

def schedule (updates : UpdateSet K Power) : UpdateCall K → UpdateSet K Power
  | insert key power => updates.insert key power
  | delete key => updates.delete key

/-- The call that changes the validator set itself in the same way. -/
def toCall : UpdateCall K → Call K
  | insert key power => .put key power
  | delete key => .remove key

/-- The update set that the calls fill. -/
def updatesOf (calls : List (UpdateCall K)) : UpdateSet K Power := calls.foldl schedule UpdateSet.new

end UpdateCall

theorem updatedPower_new (v : K) (old : Option Power) :
    updatedPower (UpdateSet.new : UpdateSet K Power) v old = old := by
  unfold updatedPower UpdateSet.new
  rw [if_neg Std.ExtTreeSet.not_mem_empty, Std.ExtTreeMap.getElem?_empty, Option.none_or]

theorem updatedPower_insert (updates : UpdateSet K Power) (key v : K) (p : Power)
    (old : Option Power) :
    updatedPower (updates.insert key p) v old =
      if key = v then some p else updatedPower updates v old := by
  unfold updatedPower UpdateSet.insert
  dsimp only
  simp only [Std.ExtTreeSet.mem_erase, Std.ExtTreeMap.getElem?_insert, ne_eq,
    Std.compare_eq_iff_eq]
  by_cases heq : key = v
  · rw [if_pos heq, if_pos heq, if_neg fun h => h.1 heq, Option.some_or]
  · rw [if_neg heq, if_neg heq]
    simp only [heq, not_false_eq_true, true_and]

theorem updatedPower_delete (updates : UpdateSet K Power) (key v : K) (old : Option Power) :
    updatedPower (updates.delete key) v old =
      if key = v then none else updatedPower updates v old := by
  unfold updatedPower UpdateSet.delete
  dsimp only
  simp only [Std.ExtTreeSet.mem_insert, Std.ExtTreeMap.getElem?_erase, Std.compare_eq_iff_eq]
  by_cases heq : key = v
  · rw [if_pos (.inl heq), if_pos heq]
  · rw [if_neg heq, if_neg heq]
    simp only [heq, false_or]

theorem run_append (calls : List (Call K)) (c : Call K) :
    vs.run (calls ++ [c]) = vs.run calls >>= fun vs => vs.call c := by
  rw [run, List.foldlM_append]
  simp only [List.foldlM_cons, List.foldlM_nil, bind_pure]
  rfl

/-- The calls, one after the other, leave each validator with the power that the update set
which they fill leaves it with. -/
theorem Sound.run_toCall (h : vs.Sound) (calls : List (UpdateCall K)) :
    ∃ vs', vs.run (calls.map UpdateCall.toCall) = .ok vs' ∧ vs'.Sound ∧
      ∀ v, vs'.power v = updatedPower (UpdateCall.updatesOf calls) v (vs.power v) := by
  induction calls using List.reverseRecOn with
  | nil => exact ⟨vs, rfl, h, fun v => (updatedPower_new v _).symm⟩
  | append_singleton calls c ih =>
    obtain ⟨vs', hrun, hsound, hpower⟩ := ih
    have hupdates : UpdateCall.updatesOf (calls ++ [c]) =
        UpdateCall.schedule (UpdateCall.updatesOf calls) c := List.foldl_concat ..
    rw [List.map_append, List.map_singleton, run_append, hrun, Result.ok_bind, hupdates]
    cases c with
    | insert key p =>
      refine ⟨vs'.afterPut key p, hsound.put_eq key p, hsound.afterPut key p, ?_⟩
      intro v
      rw [power_afterPut, hpower]
      exact (updatedPower_insert _ key v p _).symm
    | delete key =>
      have hremove : vs'.call (.remove key) = .ok (vs'.afterRemove key) := by
        show Except.ok (vs'.remove key).1 = _
        rw [hsound.remove_eq]
      refine ⟨vs'.afterRemove key, hremove, hsound.afterRemove key, ?_⟩
      intro v
      rw [power_afterRemove, hpower]
      exact (updatedPower_delete _ key v _).symm

/-! ## What a validator set is for its users -/

/-- The key vector is in ascending order and repeats the keys of the map, and the accessors agree
with both. -/
structure Represents (vs : RawValidatorSet K) : Prop where
  ascending : vs.validators.Pairwise (· < ·)
  mem_powers : ∀ v, v ∈ vs.validators ↔ v ∈ vs.powers
  len_eq : vs.len = vs.powers.size
  position_eq_some : ∀ v pos, vs.position v = some pos ↔ vs.validators[pos]? = some v
  position_eq_none : ∀ v, vs.position v = none ↔ v ∉ vs.powers
  validatorsAndPowers_eq : ∃ entries, vs.validatorsAndPowers = .ok entries ∧
    entries.map Prod.fst = vs.validators ∧ ∀ v p, (v, p) ∈ entries ↔ vs.powers[v]? = some p

theorem Sound.position_eq_some (h : vs.Sound) {v : K} {pos : Nat} :
    vs.position v = some pos ↔ vs.validators[pos]? = some v := by
  rw [← binarySearch_eq_ok h.ascending, position]
  cases binarySearch vs.validators v with
  | ok pos' => rw [Option.some.injEq, Except.ok.injEq]
  | error pos' => exact ⟨nofun, nofun⟩

theorem Sound.position_eq_none (h : vs.Sound) {v : K} : vs.position v = none ↔ v ∉ vs.powers := by
  rw [← h.mem_powers, Option.eq_none_iff_forall_ne_some, List.mem_iff_getElem?]
  simp only [ne_eq, h.position_eq_some, not_exists]

/-- No `unwrap` fails, and the entries come in the order of the keys. -/
theorem Sound.validatorsAndPowers_eq (h : vs.Sound) :
    vs.validatorsAndPowers = .ok (vs.validators.map fun v => (v, (vs.power v).getD 0)) := by
  apply Result.mapM_eq_map
  intro v hv
  have hmem : v ∈ vs.powers := (h.mem_powers v).mp hv
  have hget : vs.power v = some _ := Std.ExtTreeMap.getElem?_eq_some_getElem hmem
  rw [hget]
  rfl

theorem Sound.represents (h : vs.Sound) : vs.Represents where
  ascending := h.ascending
  mem_powers := h.mem_powers
  len_eq := by rw [len, h.validators_eq, Std.ExtTreeMap.length_keys]
  position_eq_some _ _ := h.position_eq_some
  position_eq_none _ := h.position_eq_none
  validatorsAndPowers_eq := by
    refine ⟨_, h.validatorsAndPowers_eq, ?_, ?_⟩
    · rw [List.map_map]
      exact List.map_id _
    · intro v p
      rw [List.mem_map]
      constructor
      · intro hmem
        obtain ⟨v', hv', heq⟩ := hmem
        have hget : vs.power v' = some _ :=
          Std.ExtTreeMap.getElem?_eq_some_getElem ((h.mem_powers v').mp hv')
        rw [hget] at heq
        cases heq
        exact hget
      · intro hget
        have hmem : v ∈ vs.powers := Std.ExtTreeMap.mem_iff_isSome_getElem?.mpr (hget ▸ rfl)
        refine ⟨v, (h.mem_powers v).mpr hmem, ?_⟩
        rw [power, hget]
        rfl

/-- Whatever functions are called on a new validator set, it represents a set of validators, and
then an update set changes it as the calls do that filled the update set, in whatever orders the
updates are iterated. -/
theorem represents_and_updates :
    (∀ calls : List (Call K), ∃ vs, (new : RawValidatorSet K).run calls = .ok vs ∧ vs.Represents) ∧
    ∀ (calls : List (Call K)) (vs : RawValidatorSet K), new.run calls = .ok vs →
      ∀ (updateCalls : List (UpdateCall K)) (inserts : List (K × Power)) (deletes : List K),
        inserts.Perm (UpdateCall.updatesOf updateCalls).inserts.toList →
        deletes.Perm (UpdateCall.updatesOf updateCalls).deletes.toList →
        ∃ vs', vs.applyUpdates inserts deletes = .ok vs' ∧
          vs.run (updateCalls.map UpdateCall.toCall) = .ok vs' := by
  constructor
  · intro calls
    obtain ⟨vs, hrun, hsound⟩ := sound_new.run calls
    exact ⟨vs, hrun, hsound.represents⟩
  · intro calls vs hrun updateCalls inserts deletes hinserts hdeletes
    obtain ⟨vs₀, hrun₀, hsound⟩ := sound_new.run calls
    rw [hrun, Except.ok.injEq] at hrun₀
    subst hrun₀
    obtain ⟨vs₁, happly, hsound₁, hpower₁⟩ := hsound.applyUpdates_eq hinserts hdeletes
    obtain ⟨vs₂, hcalls, hsound₂, hpower₂⟩ := hsound.run_toCall updateCalls
    have heq : vs₂ = vs₁ := by
      apply hsound₂.ext hsound₁
      intro v
      rw [hpower₁, hpower₂]
    exact ⟨vs₁, happly, heq ▸ hcalls⟩

/-- Validator 3 is deleted and put back while validator 1 goes. -/
theorem represents_and_updates_sample :
    ∃ vs vs' : RawValidatorSet VerifyingKey, new.run [.put 3 1, .put 1 2] = .ok vs ∧
      vs.applyUpdates [(3, 5), (2, 4)] [1] = .ok vs' ∧
      vs.run [.put 2 4, .remove 3, .put 3 5, .remove 1] = .ok vs' := by
  obtain ⟨vs, hrun, -⟩ := (represents_and_updates (K := VerifyingKey)).1 [.put 3 1, .put 1 2]
  obtain ⟨vs', happly, hcalls⟩ := (represents_and_updates (K := VerifyingKey)).2 _ vs hrun
    [.insert 2 4, .delete 3, .insert 3 5, .delete 1] [(3, 5), (2, 4)] [1] (by decide) (by decide)
  exact ⟨vs, vs', hrun, happly, hcalls⟩

end RawValidatorSet

/-! ## The validator sets of the other modules -/

namespace ValidatorSet

/-- The two fields alone. -/
def raw (vs : ValidatorSet) : RawValidatorSet VerifyingKey :=
  { validators := vs.validators, powers := vs.powers }

variable (vs : ValidatorSet)

theorem sound_raw : vs.raw.Sound where
  ascending := vs.ascending
  mem_powers := vs.mem_powers

theorem put_raw (v : VerifyingKey) (p : Power) : vs.raw.put v p = .ok (vs.put v p).raw :=
  vs.sound_raw.put_eq v p

theorem remove_raw (v : VerifyingKey) :
    vs.raw.remove v = ((vs.remove v).raw, (vs.power v).map fun p => (v, p)) :=
  vs.sound_raw.remove_eq v

theorem foldlM_put_raw (inserts : List (VerifyingKey × Power)) :
    inserts.foldlM (fun vs entry => vs.put entry.1 entry.2) vs.raw =
      .ok (inserts.foldl (fun vs entry => vs.put entry.1 entry.2) vs).raw := by
  induction inserts generalizing vs with
  | nil => rfl
  | cons entry inserts ih =>
    rw [List.foldlM_cons, put_raw, Result.ok_bind]
    exact ih (vs.put entry.1 entry.2)

theorem foldl_remove_raw (deletes : List VerifyingKey) :
    deletes.foldl (fun vs peer => (vs.remove peer).1) vs.raw = (deletes.foldl remove vs).raw := by
  induction deletes generalizing vs with
  | nil => rfl
  | cons peer deletes ih =>
    rw [List.foldl_cons, remove_raw]
    exact ih (vs.remove peer)

theorem applyUpdates_raw {updates : ValidatorSetUpdates} {inserts : List (VerifyingKey × Power)}
    {deletes : List VerifyingKey} (hinserts : inserts.Perm updates.inserts.toList)
    (hdeletes : deletes.Perm updates.deletes.toList) :
    vs.raw.applyUpdates inserts deletes = .ok (vs.applyUpdates updates).raw := by
  have hsorted : vs.raw.applyUpdates updates.inserts.toList updates.deletes.toList =
      .ok (vs.applyUpdates updates).raw := by
    unfold RawValidatorSet.applyUpdates
    rw [foldlM_put_raw, Result.ok_bind, foldl_remove_raw, applyUpdates,
      Std.ExtTreeMap.foldl_eq_foldl_toList, Std.ExtTreeSet.foldl_eq_foldl_toList]
    rfl
  obtain ⟨vs₁, heq₁, hsound₁, hpower₁⟩ := vs.sound_raw.applyUpdates_eq hinserts hdeletes
  obtain ⟨vs₂, heq₂, hsound₂, hpower₂⟩ := vs.sound_raw.applyUpdates_eq
    (List.Perm.refl updates.inserts.toList) (List.Perm.refl updates.deletes.toList)
  rw [hsorted, Except.ok.injEq] at heq₂
  rw [heq₁, heq₂, hsound₁.ext hsound₂ fun v => (hpower₁ v).trans (hpower₂ v).symm]

theorem position_raw (v : VerifyingKey) : vs.raw.position v = vs.position v := by
  apply Option.ext
  intro pos
  rw [vs.sound_raw.position_eq_some, position_eq_some]
  rfl

theorem validatorsAndPowers_raw : vs.raw.validatorsAndPowers = .ok vs.validatorsAndPowers :=
  vs.sound_raw.validatorsAndPowers_eq

end ValidatorSet
end HotStuffRs
