import HotStuffRs.Quorum.Weight
import HotStuffRs.Types.ValidatorSet

namespace HotStuffRs
namespace ValidatorSet

variable (vs : ValidatorSet)

/-- The validators as a set. -/
def members : Finset VerifyingKey := vs.validators.toFinset

/-- The power of a validator, zero for one that is not in the set. -/
def powerAt (validator : VerifyingKey) : Nat := ((vs.power validator).getD 0).val

/-- The power that those of `voters` who are in the set hold together. -/
def powerOf (voters : Finset VerifyingKey) : TotalPower :=
  Quorum.weight vs.powerAt (vs.members ∩ voters)

variable {vs}

theorem nodup_validators : vs.validators.Nodup := vs.ascending.imp fun h => ne_of_lt h

@[simp] theorem mem_members {v : VerifyingKey} : v ∈ vs.members ↔ v ∈ vs.validators :=
  List.mem_toFinset

theorem power_isSome {v : VerifyingKey} (h : v ∈ vs.validators) : ∃ p, vs.power v = some p := by
  have hmem : v ∈ vs.powers := (vs.mem_powers v).mp h
  exact ⟨_, Std.ExtTreeMap.getElem?_eq_some_getElem hmem⟩

theorem keys_powers : vs.powers.keys = vs.validators :=
  (Search.eq_keys vs.ascending vs.mem_powers).symm

/-- The powers in the order of the keys, as `validators_and_powers` lists them. -/
theorem toList_powers : vs.powers.toList = vs.validatorsAndPowers := by
  have hself : vs.powers.toList = vs.powers.toList.map fun e => (e.1, (vs.power e.1).getD 0) := by
    conv => lhs; rw [← List.map_id vs.powers.toList]
    apply List.map_congr_left
    intro e he
    have hget : vs.power e.1 = some e.2 := Std.ExtTreeMap.mem_toList_iff_getElem?_eq_some.mp he
    rw [hget]
    rfl
  rw [hself, validatorsAndPowers, ← keys_powers, ← Std.ExtTreeMap.map_fst_toList_eq_keys,
    List.map_map]
  rfl

theorem foldl_add (l : List (VerifyingKey × Power)) (n : Nat) :
    l.foldl (fun total e => total + e.2.val) n = n + (l.map fun e => e.2.val).sum := by
  induction l generalizing n with
  | nil => rfl
  | cons e l ih => rw [List.foldl_cons, ih, List.map_cons, List.sum_cons, Nat.add_assoc]

theorem sum_powerAt (f : VerifyingKey → Nat) :
    (vs.validators.map f).sum = ∑ v ∈ vs.members, f v :=
  (List.sum_toFinset f nodup_validators).symm

theorem totalPower_eq : vs.totalPower = Quorum.weight vs.powerAt vs.members := by
  rw [totalPower, Std.ExtTreeMap.foldl_eq_foldl_toList, toList_powers, foldl_add, Nat.zero_add,
    validatorsAndPowers, List.map_map, Quorum.weight, ← sum_powerAt]
  rfl

theorem quorum_eq_ok {q : TotalPower} :
    vs.quorum = .ok q ↔
      vs.totalPower * 2 < 2 ^ 128 ∧ q = Quorum.threshold (Quorum.weight vs.powerAt vs.members) := by
  rw [← totalPower_eq, quorum]
  by_cases h : vs.totalPower * 2 < 2 ^ 128
  · rw [if_pos h, Except.ok.injEq]
    exact ⟨fun e => ⟨h, e.symm⟩, fun e => e.2.symm⟩
  · rw [if_neg h]
    exact ⟨fun e => (by cases e), fun e => absurd e.1 h⟩

/-! ## Positions -/

theorem position_eq_some {v : VerifyingKey} {pos : Nat} :
    vs.position v = some pos ↔ vs.validators[pos]? = some v := by
  rw [position, List.idxOf?_eq_some_iff]
  constructor
  · intro h
    obtain ⟨hlt, hget, -⟩ := h
    rw [List.getElem?_eq_getElem hlt, hget]
  · intro h
    obtain ⟨hlt, hget⟩ := List.getElem?_eq_some_iff.mp h
    refine ⟨hlt, hget, ?_⟩
    intro j hj hget'
    have hjpos : j = pos := by
      apply nodup_validators.getElem_inj_iff.mp
      rw [hget', hget]
    omega

theorem position_eq_none {v : VerifyingKey} : vs.position v = none ↔ v ∉ vs.validators := by
  rw [position, List.idxOf?_eq_none_iff]

end ValidatorSet
end HotStuffRs
