import HotStuffRs.HotStuff.Roles
import HotStuffRs.RoundRobin.Interleaved
import HotStuffRs.Types.Power

/-
Leader selection.

The search walks through the abstract array, a cycle of the interleaved weighted round robin, and
ends at the place that the view number leaves modulo the total power.
-/

namespace HotStuffRs

open RoundRobin

/-! ## The search -/

section

variable (power : VerifyingKey → Power) (validators : List VerifyingKey)

/-- The search of a row ends with the leader, or with the number of places passed. -/
theorem searchRow_eq {threshold index counter : Nat} (h : counter ≤ index) :
    searchRow threshold index (validators.map fun v => (v, power v)) counter =
      match (row (fun v => (power v).val) validators threshold)[index - counter]? with
      | some leader => .error leader
      | none => .ok (counter + (row (fun v => (power v).val) validators threshold).length) := by
  induction validators generalizing counter with
  | nil => rfl
  | cons v validators ih =>
    rw [List.map_cons, searchRow]
    by_cases hle : threshold ≤ (power v).val
    · have hrow : row (fun v => (power v).val) (v :: validators) threshold =
          v :: row (fun v => (power v).val) validators threshold :=
        List.filter_cons_of_pos (by rw [decide_eq_true_eq]; exact hle)
      rw [if_pos hle, hrow]
      by_cases heq : counter = index
      · rw [if_pos heq, heq, Nat.sub_self, List.getElem?_cons_zero]
      · have hlt : index - counter = index - (counter + 1) + 1 := by omega
        rw [if_neg heq, ih (by omega), hlt, List.getElem?_cons_succ, List.length_cons,
          Nat.add_right_comm, Nat.add_assoc counter]
    · have hrow : row (fun v => (power v).val) (v :: validators) threshold =
          row (fun v => (power v).val) validators threshold :=
        List.filter_cons_of_neg (by rw [decide_eq_true_eq]; exact hle)
      rw [if_neg hle, hrow, ih h]

theorem searchLeader_eq {index counter : Nat} (h : counter ≤ index) (n threshold : Nat) :
    searchLeader (validators.map fun v => (v, power v)) index n threshold counter =
      (rows (fun v => (power v).val) validators threshold n)[index - counter]? := by
  induction n generalizing threshold counter with
  | zero => rfl
  | succ n ih =>
    rw [searchLeader, searchRow_eq power validators h, rows_succ]
    cases hrow : (row (fun v => (power v).val) validators threshold)[index - counter]? with
    | some leader =>
      obtain ⟨hlt, -⟩ := List.getElem?_eq_some_iff.mp hrow
      rw [List.getElem?_append_left hlt, hrow]
    | none =>
      have hlen := List.getElem?_eq_none_iff.mp hrow
      rw [List.getElem?_append_right hlen, ← Nat.sub_add_eq]
      exact ih (by omega) (threshold + 1)

end

namespace ValidatorSet

variable (vs : ValidatorSet)

/-- The greatest power of a validator. -/
def maxPower : Nat := (vs.validatorsAndPowers.map fun (_, power) => power.val).max?.getD 0

/-- The abstract array of leaders. -/
def leaders : List VerifyingKey := cycle vs.powerAt vs.validators vs.maxPower

variable {vs}

theorem powers_eq : (vs.validatorsAndPowers.map fun (_, power) => power.val) =
    vs.validators.map vs.powerAt := by
  rw [validatorsAndPowers, List.map_map]
  rfl

theorem powerAt_le_maxPower {v : VerifyingKey} (hv : v ∈ vs.validators) :
    vs.powerAt v ≤ vs.maxPower := by
  rw [maxPower, powers_eq]
  have hmem : vs.powerAt v ∈ vs.validators.map vs.powerAt := List.mem_map_of_mem hv
  cases hmax : (vs.validators.map vs.powerAt).max? with
  | none =>
    rw [List.max?_eq_none_iff.mp hmax] at hmem
    cases hmem
  | some pMax => exact (List.max?_eq_some_iff.mp hmax).2 _ hmem

theorem length_leaders : vs.leaders.length = vs.totalPower := by
  rw [leaders, length_cycle nodup_validators fun _ => powerAt_le_maxPower, sum_powerAt,
    totalPower_eq]
  rfl

theorem powerAt_of_notMem {v : VerifyingKey} (hv : v ∉ vs.validators) : vs.powerAt v = 0 := by
  have hnone : vs.power v = none := by
    apply Std.ExtTreeMap.getElem?_eq_none
    rwa [← vs.mem_powers]
  rw [powerAt, hnone]
  rfl

theorem mem_leaders {v : VerifyingKey} (h : v ∈ vs.leaders) :
    v ∈ vs.validators ∧ 0 < vs.powerAt v := mem_cycle h

theorem count_leaders (v : VerifyingKey) : vs.leaders.count v = vs.powerAt v := by
  by_cases hv : v ∈ vs.validators
  · exact count_cycle nodup_validators hv (powerAt_le_maxPower hv)
  · rw [powerAt_of_notMem hv]
    exact List.count_eq_zero_of_not_mem fun h => hv (mem_leaders h).1

end ValidatorSet

variable {vs : ValidatorSet} {view : ViewNumber}

/-- Whatever the total power, its low 64 bits decide on the place in the abstract array. -/
theorem selectLeader_eq (h : vs.totalPower % 2 ^ 64 ≠ 0) :
    selectLeader view vs = Result.unwrap vs.leaders[view.val % (vs.totalPower % 2 ^ 64)]? := by
  unfold selectLeader
  dsimp only
  rw [if_neg h]
  cases hmax : (vs.validatorsAndPowers.map fun (_, power) => power.val).max? with
  | none =>
    have hleaders : vs.leaders = [] := by
      rw [ValidatorSet.leaders, ValidatorSet.maxPower, hmax]
      rfl
    rw [hleaders]
    rfl
  | some pMax =>
    have hleaders : vs.leaders = rows vs.powerAt vs.validators 1 pMax := by
      rw [ValidatorSet.leaders, ValidatorSet.maxPower, hmax]
      rfl
    have hsearch := searchLeader_eq (fun v => (vs.power v).getD 0) vs.validators
      (Nat.zero_le (view.val % (vs.totalPower % 2 ^ 64))) pMax 1
    rw [Result.unwrap_some, Result.ok_bind, hleaders]
    exact congrArg Result.unwrap hsearch

theorem selectLeader_eq_ok (h : vs.totalPower % 2 ^ 64 ≠ 0) {leader : VerifyingKey} :
    selectLeader view vs = .ok leader ↔
      vs.leaders[view.val % (vs.totalPower % 2 ^ 64)]? = some leader := by
  rw [selectLeader_eq h]
  cases vs.leaders[view.val % (vs.totalPower % 2 ^ 64)]? with
  | none => exact ⟨nofun, nofun⟩
  | some v => rw [Result.unwrap_some, Except.ok.injEq, Option.some.injEq]

/-- The search ends, as the place is within the abstract array. -/
theorem exists_selectLeader (h : vs.totalPower % 2 ^ 64 ≠ 0) (view : ViewNumber) :
    ∃ leader, selectLeader view vs = .ok leader ∧ leader ∈ vs.validators ∧
      0 < vs.powerAt leader := by
  have hindex : view.val % (vs.totalPower % 2 ^ 64) < vs.totalPower % 2 ^ 64 :=
    Nat.mod_lt _ (Nat.pos_of_ne_zero h)
  have hlt : view.val % (vs.totalPower % 2 ^ 64) < vs.leaders.length := by
    rw [ValidatorSet.length_leaders]
    exact hindex.trans_le (Nat.mod_le _ _)
  have hget := List.getElem?_eq_getElem hlt
  exact ⟨_, (selectLeader_eq_ok h).mpr hget, ValidatorSet.mem_leaders (List.getElem_mem hlt)⟩

theorem selectLeader_panic (h : vs.totalPower % 2 ^ 64 = 0) (view : ViewNumber) :
    selectLeader view vs = .error .panic := by
  unfold selectLeader
  dsimp only
  rw [if_pos h]
  rfl

/-! ## Fairness -/

/-- The number of views among the `n` from `start` on that `validator` leads. -/
def timesLeader (vs : ValidatorSet) (validator : VerifyingKey) (start n : Nat) : Nat :=
  ((Finset.Ico start (start + n)).filter fun view =>
    selectLeader (Fin.ofNat _ view) vs = .ok validator).card

/-- Among as many views in a row as the total power, each validator leads as often as its power
says. -/
theorem select_leader_fair {vs : ValidatorSet} {start : ViewNumber} (hpos : 0 < vs.totalPower)
    (hlt : vs.totalPower < 2 ^ 64) (hwindow : start.val + vs.totalPower ≤ 2 ^ 64) :
    (∀ view, ∃ leader ∈ vs.validators, selectLeader view vs = .ok leader) ∧
    ∀ validator, timesLeader vs validator start vs.totalPower = vs.powerAt validator := by
  have hmod : vs.totalPower % 2 ^ 64 = vs.totalPower := Nat.mod_eq_of_lt hlt
  have hne : vs.totalPower % 2 ^ 64 ≠ 0 := by
    rw [hmod]
    exact Nat.ne_of_gt hpos
  constructor
  · intro view
    obtain ⟨leader, heq, hmem, -⟩ := exists_selectLeader hne view
    exact ⟨leader, hmem, heq⟩
  · intro validator
    have hcard := card_window vs.leaders start.val validator
    rw [ValidatorSet.length_leaders, ValidatorSet.count_leaders] at hcard
    rw [← hcard, timesLeader]
    apply congrArg Finset.card
    apply Finset.filter_congr
    intro view hview
    have hview' : view < 2 ^ 64 := (Finset.mem_Ico.mp hview).2.trans_le hwindow
    rw [selectLeader_eq_ok hne, hmod, Fin.val_ofNat, Nat.mod_eq_of_lt hview']

namespace Sample

/-- Two validators with powers 3 and 1. -/
def unevenSet : ValidatorSet := (ValidatorSet.new.put 1 3).put 2 1

end Sample

/-- From view 6 on, validator 1 leads in three of four views. -/
theorem select_leader_fair_uneven : timesLeader Sample.unevenSet 1 6 4 = 3 :=
  (@select_leader_fair Sample.unevenSet 6 (by decide) (by decide) (by decide)).2 1

/-! ## Safety -/

/-- Leader selection and the quorum can be computed, with no part of a number lost. -/
structure PowerSafe (vs : ValidatorSet) (view : ViewNumber) : Prop where
  leads : ∃ leader, selectLeader view vs = .ok leader ∧ leader ∈ vs.validators ∧
    0 < vs.powerAt leader
  quorum : ∃ q, vs.quorum = .ok q ∧ 1 ≤ q ∧ q ≤ vs.totalPower
  untruncated : vs.totalPower % 2 ^ 64 = vs.totalPower

theorem quorum_in_range (hpos : 0 < vs.totalPower) (hlimit : vs.totalPower ≤ (2 ^ 128 - 1) / 2) :
    ∃ q, vs.quorum = .ok q ∧ 1 ≤ q ∧ q ≤ vs.totalPower := by
  have hdouble : ∀ p : Nat, p ≤ (2 ^ 128 - 1) / 2 → p * 2 < 2 ^ 128 := by omega
  refine ⟨Quorum.threshold vs.totalPower, ?_, Quorum.threshold_pos _, Quorum.threshold_le hpos⟩
  unfold ValidatorSet.quorum
  rw [if_pos (hdouble _ hlimit)]
  rfl

/-- Up to the limit on the total power, only the narrowing to 64 bits goes wrong, and the code
panics where it leaves zero. -/
theorem power_safe_iff {vs : ValidatorSet} {view : ViewNumber} (hpos : 0 < vs.totalPower)
    (hlimit : vs.totalPower ≤ (2 ^ 128 - 1) / 2) :
    (PowerSafe vs view ↔ vs.totalPower < 2 ^ 64) ∧
    (selectLeader view vs = .error .panic ↔ vs.totalPower % 2 ^ 64 = 0) := by
  constructor
  · constructor
    · intro h
      rw [← h.untruncated]
      exact Nat.mod_lt _ (Nat.two_pow_pos 64)
    · intro h
      have hmod : vs.totalPower % 2 ^ 64 = vs.totalPower := Nat.mod_eq_of_lt h
      have hne : vs.totalPower % 2 ^ 64 ≠ 0 := by
        rw [hmod]
        exact Nat.ne_of_gt hpos
      exact {
        leads := exists_selectLeader hne view
        quorum := quorum_in_range hpos hlimit
        untruncated := hmod }
  · constructor
    · intro h
      by_contra hne
      obtain ⟨leader, heq, -⟩ := exists_selectLeader hne view
      rw [h] at heq
      cases heq
    · intro h
      exact selectLeader_panic h view

theorem power_safe_uneven : PowerSafe Sample.unevenSet 6 :=
  (@power_safe_iff Sample.unevenSet 6 (by decide) (by decide)).1.mpr (by decide)

namespace Sample

/-- Two validators with powers that are `2 ^ 64` together. -/
def halvesSet : ValidatorSet := (ValidatorSet.new.put 1 (2 ^ 63)).put 2 (2 ^ 63)

end Sample

/-- Nothing is left of a total power of `2 ^ 64`. -/
theorem halves_not_safe : 0 < Sample.halvesSet.totalPower ∧
    Sample.halvesSet.totalPower ≤ (2 ^ 128 - 1) / 2 ∧
    selectLeader 0 Sample.halvesSet = .error .panic ∧ ¬PowerSafe Sample.halvesSet 0 := by
  refine ⟨by decide, by decide, selectLeader_panic (by decide) 0, ?_⟩
  intro h
  have hmod := h.untruncated
  revert hmod
  decide

end HotStuffRs
