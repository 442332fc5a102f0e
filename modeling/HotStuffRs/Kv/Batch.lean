import Mathlib.Logic.Function.Basic
import Mathlib.Data.List.Induction

namespace HotStuffRs
namespace Kv

variable {K : Type} {V : K → Type}

/-- A key-value store whose values are typed by their keys. -/
def Store (V : K → Type) : Type := (k : K) → Option (V k)

/-- One queued operation of a write batch. -/
inductive Op (V : K → Type)
  | set (k : K) (v : V k)
  | delete (k : K)

/-- A write batch, in the order in which its operations were queued. -/
abbrev Batch (V : K → Type) := List (Op V)

namespace Op

def key : Op V → K
  | set k _ => k
  | delete k => k

def value : (o : Op V) → Option (V o.key)
  | set _ v => some v
  | delete _ => none

@[simp] theorem key_set (k : K) (v : V k) : (set k v).key = k := rfl

@[simp] theorem key_delete (k : K) : (delete k : Op V).key = k := rfl

@[simp] theorem value_set (k : K) (v : V k) : (set k v).value = some v := rfl

@[simp] theorem value_delete (k : K) : (delete k : Op V).value = none := rfl

end Op

namespace Store

def empty : Store V := fun _ => none

variable [DecidableEq K]

def apply (s : Store V) (o : Op V) : Store V := Function.update s o.key o.value

/-- Writing a batch performs its operations in order, so that the last operation
on a key wins. -/
def write (s : Store V) (wb : Batch V) : Store V := wb.foldl apply s

@[simp] theorem write_nil (s : Store V) : s.write [] = s := rfl

theorem write_cons (s : Store V) (o : Op V) (wb : Batch V) :
    s.write (o :: wb) = (s.apply o).write wb := rfl

theorem write_append (s : Store V) (a b : Batch V) : s.write (a ++ b) = (s.write a).write b :=
  List.foldl_append

@[simp] theorem apply_key (s : Store V) (o : Op V) : s.apply o o.key = o.value :=
  Function.update_self ..

theorem apply_of_ne (s : Store V) {o : Op V} {k : K} (h : k ≠ o.key) : s.apply o k = s k :=
  Function.update_of_ne h ..

theorem apply_set (s : Store V) (k : K) (v : V k) : s.apply (.set k v) k = some v :=
  apply_key s (.set k v)

theorem apply_delete (s : Store V) (k : K) : s.apply (.delete k) k = none :=
  apply_key s (.delete k)

/-- A batch leaves every key it does not name as it was. -/
theorem write_of_notMem (s : Store V) {wb : Batch V} {k : K} (h : ∀ o ∈ wb, k ≠ o.key) :
    s.write wb k = s k := by
  induction wb generalizing s with
  | nil => rfl
  | cons o wb ih =>
    rw [write_cons, ih _ fun o' ho' => h o' (List.mem_cons_of_mem _ ho')]
    exact apply_of_ne s (h o List.mem_cons_self)

/-- What a batch leaves at a key it names does not depend on the store. -/
theorem write_of_mem (s t : Store V) {wb : Batch V} {k : K} (h : ∃ o ∈ wb, k = o.key) :
    s.write wb k = t.write wb k := by
  induction wb generalizing s t with
  | nil => obtain ⟨o, ho, -⟩ := h; cases ho
  | cons o wb ih =>
    by_cases hk : ∃ o' ∈ wb, k = o'.key
    · exact ih _ _ hk
    · have hwb : ∀ o' ∈ wb, k ≠ o'.key := fun o' ho' he => hk ⟨o', ho', he⟩
      obtain ⟨o', ho', rfl⟩ := h
      rcases List.mem_cons.mp ho' with rfl | ho'
      · rw [write_cons, write_cons, write_of_notMem _ hwb, write_of_notMem _ hwb,
          apply_key, apply_key]
      · exact absurd rfl (hwb o' ho')

/-- An earlier batch does not matter for the keys it does not name. -/
theorem write_append_of_notMem (s : Store V) {a b : Batch V} {k : K} (h : ∀ o ∈ a, k ≠ o.key) :
    s.write (a ++ b) k = s.write b k := by
  rw [write_append]
  by_cases hk : ∃ o ∈ b, k = o.key
  · exact write_of_mem _ _ hk
  · have hb : ∀ o ∈ b, k ≠ o.key := fun o ho he => hk ⟨o, ho, he⟩
    rw [write_of_notMem _ hb, write_of_notMem _ hb, write_of_notMem _ h]

/-- A key whose every operation in the batch deletes it is absent after the write. -/
theorem write_of_deleted (s : Store V) {wb : Batch V} {k : K} (hmem : .delete k ∈ wb)
    (h : ∀ v, .set k v ∉ wb) : s.write wb k = none := by
  induction wb using List.reverseRecOn with
  | nil => cases hmem
  | append_singleton wb o ih =>
    rw [write_append, write_cons, write_nil]
    by_cases hk : k = o.key
    · cases o with
      | set k' v => cases hk; exact absurd (by simp) (h v)
      | delete k' => cases hk; exact apply_delete _ _
    · rw [apply_of_ne _ hk]
      refine ih ?_ fun v hv => h v (List.mem_append_left _ hv)
      rcases List.mem_append.mp hmem with hm | hm
      · exact hm
      · rw [List.mem_singleton] at hm
        exact absurd (by rw [← hm]; rfl) hk

/-- What is there after a write was set by it, or was there before and is not written. -/
theorem cases_of_write (s : Store V) {wb : Batch V} {k : K} {v : V k} (h : s.write wb k = some v) :
    .set k v ∈ wb ∨ (∀ o ∈ wb, k ≠ o.key) ∧ s k = some v := by
  induction wb using List.reverseRecOn with
  | nil => exact .inr ⟨nofun, h⟩
  | append_singleton wb o ih =>
    rw [write_append, write_cons, write_nil] at h
    by_cases hk : k = o.key
    · subst hk
      rw [apply_key] at h
      cases o with
      | set k' v' =>
        obtain rfl : v' = v := Option.some.inj h
        exact .inl (by simp)
      | delete k' => cases h
    · rw [apply_of_ne _ hk] at h
      refine (ih h).imp (List.mem_append_left _) fun hkept => ⟨fun o' ho' => ?_, hkept.2⟩
      rcases List.mem_append.mp ho' with ho' | ho'
      · exact hkept.1 o' ho'
      · rw [List.mem_singleton.mp ho']
        exact hk

/-- A key that the batch sets and never deletes is there after the write. -/
theorem write_of_set (s : Store V) {wb : Batch V} {k : K} {v : V k} (hmem : .set k v ∈ wb)
    (h : .delete k ∉ wb) : (s.write wb k).isSome = true := by
  induction wb using List.reverseRecOn with
  | nil => cases hmem
  | append_singleton wb o ih =>
    rw [write_append, write_cons, write_nil]
    by_cases hk : k = o.key
    · cases o with
      | set k' v' => cases hk; rw [apply_key]; rfl
      | delete k' => cases hk; exact absurd (by simp) h
    · rw [apply_of_ne _ hk]
      refine ih ?_ fun hd => h (List.mem_append_left _ hd)
      rcases List.mem_append.mp hmem with hm | hm
      · exact hm
      · rw [List.mem_singleton] at hm
        exact absurd (by rw [← hm]; rfl) hk

/-- A key that is there and that the batch never deletes is there after the write. -/
theorem isSome_write (s : Store V) {wb : Batch V} {k : K} (hs : (s k).isSome = true)
    (h : .delete k ∉ wb) : (s.write wb k).isSome = true := by
  by_cases hk : ∃ o ∈ wb, k = o.key
  · obtain ⟨o, ho, rfl⟩ := hk
    cases o with
    | set k v => exact write_of_set s ho h
    | delete k => exact absurd ho h
  · rw [write_of_notMem s fun o ho he => hk ⟨o, ho, he⟩]
    exact hs

end Store

/-- What a batch leaves at `k`: nothing said, or a value or its absence. -/
def Batch.result? [DecidableEq K] (k : K) : Batch V → Option (Option (V k))
  | [] => none
  | o :: wb =>
    match result? k wb with
    | some r => some r
    | none => if h : o.key = k then some (h ▸ o.value) else none

theorem Batch.result?_eq_none [DecidableEq K] {wb : Batch V} {k : K} :
    result? k wb = none ↔ ∀ o ∈ wb, o.key ≠ k := by
  induction wb with
  | nil => simp [result?]
  | cons o wb ih =>
    rw [result?, List.forall_mem_cons, ← ih]
    cases result? k wb with
    | some r => simp
    | none => by_cases hk : o.key = k <;> simp [hk]

/-- An operation that is the only one on its key decides what the batch leaves there. -/
theorem Batch.result?_of_unique [DecidableEq K] {wb : Batch V} {o : Op V} (ho : o ∈ wb)
    (h : ∀ o' ∈ wb, o'.key = o.key → o' = o) : result? o.key wb = some o.value := by
  induction wb with
  | nil => cases ho
  | cons o₁ wb ih =>
    have htail : ∀ o' ∈ wb, o'.key = o.key → o' = o := fun o' ho' =>
      h o' (List.mem_cons_of_mem _ ho')
    rw [result?]
    by_cases hmem : o ∈ wb
    · rw [ih hmem htail]
    · have hnone : result? o.key wb = none := result?_eq_none.mpr fun o' ho' hk =>
        hmem (htail o' ho' hk ▸ ho')
      obtain rfl : o = o₁ := (List.mem_cons.mp ho).resolve_right hmem
      rw [hnone]
      simp

theorem Store.write_eq [DecidableEq K] (s : Store V) (wb : Batch V) (k : K) :
    s.write wb k = (Batch.result? k wb).getD (s k) := by
  induction wb generalizing s with
  | nil => rfl
  | cons o wb ih =>
    rw [write_cons, ih, Batch.result?]
    cases Batch.result? k wb with
    | some r => rfl
    | none =>
      by_cases hk : o.key = k
      · subst hk
        simp
      · simp only [Option.getD_none, dif_neg hk, apply_of_ne s (Ne.symm hk)]

/-- An operation that is the only one on its key is what a read finds. -/
theorem Store.write_of_unique [DecidableEq K] (s : Store V) {wb : Batch V} {o : Op V}
    (ho : o ∈ wb) (h : ∀ o' ∈ wb, o'.key = o.key → o' = o) : s.write wb o.key = o.value := by
  rw [write_eq, Batch.result?_of_unique ho h]
  rfl

end Kv
end HotStuffRs
