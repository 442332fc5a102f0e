import HotStuffRs.BlockTree.Errors
import HotStuffRs.Search.Binary

namespace HotStuffRs

/-- The public keys of validators with their powers.  The key vector repeats the
keys of the map in ascending order, which is what `put` and `remove` maintain. -/
structure ValidatorSet where
  validators : List VerifyingKey
  powers : HashMap VerifyingKey Power
  ascending : validators.Pairwise (· < ·)
  mem_powers : ∀ v, v ∈ validators ↔ v ∈ powers

namespace ValidatorSet

theorem ext_fields {a b : ValidatorSet} (hv : a.validators = b.validators)
    (hp : a.powers = b.powers) : a = b := by
  cases a; cases b; cases hv; cases hp; rfl

instance : DecidableEq ValidatorSet := fun a b =>
  decidable_of_iff (a.validators = b.validators ∧ a.powers = b.powers)
    ⟨fun h => ext_fields h.1 h.2, fun h => by subst h; exact ⟨rfl, rfl⟩⟩

def new : ValidatorSet where
  validators := []
  powers := ∅
  ascending := .nil
  mem_powers := by simp

def contains (vs : ValidatorSet) (validator : VerifyingKey) : Bool :=
  vs.powers.contains validator

theorem contains_iff {vs : ValidatorSet} {v : VerifyingKey} :
    vs.contains v = true ↔ v ∈ vs.validators := by
  rw [mem_powers, contains, Std.ExtTreeMap.contains_iff_mem]

/-- Set the power of `validator`, inserting its key where the binary search ends
when the set does not contain it yet. -/
def put (vs : ValidatorSet) (validator : VerifyingKey) (power : Power) : ValidatorSet where
  validators :=
    if vs.contains validator then vs.validators
    else vs.validators.orderedInsert (· ≤ ·) validator
  powers := vs.powers.insert validator power
  ascending := by
    split
    · exact vs.ascending
    · rename_i h
      exact Search.pairwise_orderedInsert vs.ascending fun hv => h (contains_iff.mpr hv)
  mem_powers v := by
    rw [Std.ExtTreeMap.mem_insert, Std.compare_eq_iff_eq]
    split
    · rename_i h
      rw [vs.mem_powers]
      have hv := (vs.mem_powers validator).mp (contains_iff.mp h)
      exact ⟨.inr, fun h => h.elim (fun e => e ▸ hv) id⟩
    · rw [List.mem_orderedInsert, vs.mem_powers, eq_comm]

/-- Remove `validator`, if the binary search finds its key. -/
def remove (vs : ValidatorSet) (validator : VerifyingKey) : ValidatorSet where
  validators := vs.validators.erase validator
  powers := vs.powers.erase validator
  ascending := vs.ascending.sublist List.erase_sublist
  mem_powers v := by
    have hnodup : vs.validators.Nodup := vs.ascending.imp fun h => ne_of_lt h
    rw [hnodup.mem_erase_iff, Std.ExtTreeMap.mem_erase, vs.mem_powers]
    simp only [ne_eq, Std.compare_eq_iff_eq, @eq_comm _ v]

def applyUpdates (vs : ValidatorSet) (updates : ValidatorSetUpdates) : ValidatorSet :=
  updates.deletes.foldl remove (updates.inserts.foldl put vs)

def power (vs : ValidatorSet) (validator : VerifyingKey) : Option Power :=
  vs.powers[validator]?

def totalPower (vs : ValidatorSet) : TotalPower :=
  vs.powers.foldl (fun total _ power => total + power.val) 0

/-- The `unwrap` of the source cannot fail, by `mem_powers`. -/
def validatorsAndPowers (vs : ValidatorSet) : List (VerifyingKey × Power) :=
  vs.validators.map fun v => (v, (vs.power v).getD 0)

def len (vs : ValidatorSet) : Nat := vs.validators.length

/-- The index at which the binary search finds `validator`. -/
def position (vs : ValidatorSet) (validator : VerifyingKey) : Option Nat :=
  vs.validators.idxOf? validator

/-- The least power of a quorum.  The checked multiplication panics past
`u128::MAX / 2`. -/
def quorum (vs : ValidatorSet) : Result TotalPower :=
  if vs.totalPower * 2 < 2 ^ 128 then .ok (vs.totalPower * 2 / 3 + 1) else .error .panic

end ValidatorSet

/-- The validator sets that certificates and votes may be about. -/
structure ValidatorSetState where
  committedValidatorSet : ValidatorSet
  previousValidatorSet : ValidatorSet
  updateHeight : Option BlockHeight
  updateDecided : Bool
  deriving DecidableEq

inductive ValidatorSetUpdatesStatus
  | none
  | pending (updates : ValidatorSetUpdates)
  | committed
  deriving DecidableEq

namespace ValidatorSetUpdatesStatus

def containsUpdates : ValidatorSetUpdatesStatus → Bool
  | none => false
  | pending _ | committed => true

def isPending : ValidatorSetUpdatesStatus → Bool
  | pending _ => true
  | _ => false

end ValidatorSetUpdatesStatus

end HotStuffRs
