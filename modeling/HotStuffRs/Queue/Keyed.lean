import Mathlib.Algebra.BigOperators.Group.List.Basic
import Mathlib.Algebra.GroupWithZero.Nat
import Mathlib.Order.Lattice
import Mathlib.Tactic.Common

/-
Queues by key.

A sorted map from keys to first-in first-out queues.  A key may be there with an empty queue.
Elements have sizes, and room is made by evicting elements from the end of the queues of the
highest keys.
-/

namespace HotStuffRs
namespace Queue

variable {κ α β : Type}

/-- The elements that are taken from the end of a queue, given in reverse, until at least
`need` is taken, where `taken` is already. -/
def takeBack (size : α → Nat) (need : Nat) : List α → Nat → List α
  | [], _ => []
  | a :: rest, taken =>
    if taken < need then a :: takeBack size need rest (taken + size a) else []

theorem takeBack_prefixOf (size : α → Nat) (need : Nat) (l : List α) :
    ∀ taken, takeBack size need l taken <+: l := by
  induction l with
  | nil => intro taken; exact List.prefix_rfl
  | cons a rest ih =>
    intro taken
    unfold takeBack
    split
    · exact (List.prefix_cons_inj a).mpr (ih _)
    · exact List.nil_prefix

/-- Enough is taken, or everything. -/
theorem takeBack_enough (size : α → Nat) (need : Nat) (l : List α) :
    ∀ taken, need ≤ taken + ((takeBack size need l taken).map size).sum ∨
      takeBack size need l taken = l := by
  induction l with
  | nil => intro taken; exact .inr rfl
  | cons a rest ih =>
    intro taken
    unfold takeBack
    split
    · rcases ih (taken + size a) with h | h
      · left
        rw [List.map_cons, List.sum_cons]
        omega
      · right
        rw [h]
    · left
      omega

/-- Evict elements, from the end of the queue of the highest key on, until at least `need` is
taken.  Keys whose queues are left empty go, too. -/
def evictEntries (size : α → Nat) (need : Nat) :
    List (κ × List α) → Nat → List α × List (κ × List α)
  | [], _ => ([], [])
  | (key, queue) :: rest, taken =>
    if taken < need then
      let back := takeBack size need queue.reverse taken
      let left := queue.take (queue.length - back.length)
      let (evicted, rest) := evictEntries size need rest (taken + (back.map size).sum)
      (back ++ evicted, if left.isEmpty then rest else (key, left) :: rest)
    else ([], (key, queue) :: rest)

/-- What is left of a queue, and what is taken from its end. -/
theorem append_reverse_takeBack (size : α → Nat) (need taken : Nat) (queue : List α) :
    queue.take (queue.length - (takeBack size need queue.reverse taken).length) ++
      (takeBack size need queue.reverse taken).reverse = queue := by
  obtain ⟨t, ht⟩ := takeBack_prefixOf size need queue.reverse taken
  have hqueue : t.reverse ++ (takeBack size need queue.reverse taken).reverse = queue := by
    rw [← List.reverse_append, ht, List.reverse_reverse]
  have hlength : queue.length = t.length + (takeBack size need queue.reverse taken).length := by
    have h := congrArg List.length hqueue
    simp only [List.length_append, List.length_reverse] at h
    omega
  have htake : queue.take (queue.length - (takeBack size need queue.reverse taken).length) =
      t.reverse := by
    rw [hlength, Nat.add_sub_cancel]
    conv_lhs => rw [← hqueue]
    rw [List.take_left' (by simp)]
  rw [htake, hqueue]

theorem evictEntries_sublist (size : α → Nat) (need : Nat) (entries : List (κ × List α)) :
    ∀ taken, ((evictEntries size need entries taken).2.map Prod.fst).Sublist
      (entries.map Prod.fst) := by
  induction entries with
  | nil => intro taken; exact List.Sublist.refl _
  | cons e rest ih =>
    intro taken
    unfold evictEntries
    split
    · dsimp only
      split
      · exact (ih _).cons _
      · exact (ih _).cons_cons _
    · exact List.Sublist.refl _

theorem mem_entries_of_mem_evictEntries {size : α → Nat} {need : Nat} (entries : List (κ × List α)) :
    ∀ taken, ∀ a ∈ (evictEntries size need entries taken).1, ∃ e ∈ entries, a ∈ e.2 := by
  induction entries with
  | nil => intro taken a ha; cases ha
  | cons e rest ih =>
    intro taken a ha
    unfold evictEntries at ha
    split at ha
    · rcases List.mem_append.mp ha with hback | hrest
      · have hmem := (takeBack_prefixOf size need e.2.reverse taken).subset hback
        exact ⟨e, List.mem_cons_self, List.mem_reverse.mp hmem⟩
      · obtain ⟨e', he', ha'⟩ := ih _ a hrest
        exact ⟨e', List.mem_cons_of_mem _ he', ha'⟩
    · cases ha

/-- All elements, those of the highest key first. -/
def allOf (entries : List (κ × List α)) : List α := entries.flatMap Prod.snd

/-- The sizes of all elements together. -/
def sizeOf (size : α → Nat) (entries : List (κ × List α)) : Nat := ((allOf entries).map size).sum

@[simp] theorem sizeOf_nil (size : α → Nat) : sizeOf size ([] : List (κ × List α)) = 0 := rfl

@[simp] theorem sizeOf_cons (size : α → Nat) (e : κ × List α) (entries : List (κ × List α)) :
    sizeOf size (e :: entries) = (e.2.map size).sum + sizeOf size entries := by
  simp [sizeOf, allOf]

/-- What is evicted and what is left make up what was there. -/
theorem sizeOf_evictEntries (size : α → Nat) (need : Nat) (entries : List (κ × List α)) :
    ∀ taken, sizeOf size (evictEntries size need entries taken).2 +
      ((evictEntries size need entries taken).1.map size).sum = sizeOf size entries := by
  induction entries with
  | nil => intro taken; rfl
  | cons e rest ih =>
    intro taken
    unfold evictEntries
    split
    · dsimp only
      have hqueue := congrArg (fun l => (l.map size).sum)
        (append_reverse_takeBack size need taken e.2)
      simp only [List.map_append, List.map_reverse, List.sum_append, List.sum_reverse] at hqueue
      have hrest := ih (taken + ((takeBack size need e.2.reverse taken).map size).sum)
      simp only [List.map_append, List.sum_append, sizeOf_cons]
      split
      · rename_i hempty
        rw [List.isEmpty_iff] at hempty
        rw [hempty, List.map_nil, List.sum_nil] at hqueue
        omega
      · simp only [sizeOf_cons]
        omega
    · simp

/-- Enough is evicted, or everything. -/
theorem evictEntries_enough (size : α → Nat) (need : Nat) (entries : List (κ × List α)) :
    ∀ taken, need ≤ taken + ((evictEntries size need entries taken).1.map size).sum ∨
      (evictEntries size need entries taken).2 = [] := by
  induction entries with
  | nil => intro taken; exact .inr rfl
  | cons e rest ih =>
    intro taken
    unfold evictEntries
    split
    · dsimp only
      have hqueue := append_reverse_takeBack size need taken e.2
      set back := takeBack size need e.2.reverse taken with hback
      simp only [List.map_append, List.sum_append]
      rcases takeBack_enough size need e.2.reverse taken with henough | hall
      · left
        rw [← hback] at henough
        omega
      · rw [← hback] at hall
        have hleft : (e.2.take (e.2.length - back.length)).isEmpty = true := by
          rw [hall, List.length_reverse, Nat.sub_self]
          rfl
        rw [if_pos hleft]
        rcases ih (taken + (back.map size).sum) with henough | hnone
        · left
          omega
        · exact .inr hnone
    · left
      omega

/-- Nothing is evicted once enough is taken. -/
theorem evictEntries_of_le {size : α → Nat} {need taken : Nat} (h : need ≤ taken)
    (entries : List (κ × List α)) : evictEntries size need entries taken = ([], entries) := by
  cases entries with
  | nil => rfl
  | cons e rest =>
    obtain ⟨key, queue⟩ := e
    rw [evictEntries, if_neg (Nat.not_lt.mpr h)]

/-- What is evicted of the later queues is what is still needed after the earlier ones. -/
theorem evictEntries_append (size : α → Nat) (need : Nat) (entries entries' : List (κ × List α)) :
    ∀ taken, evictEntries size need (entries ++ entries') taken =
      let first := evictEntries size need entries taken
      let second := evictEntries size need entries' (taken + (first.1.map size).sum)
      (first.1 ++ second.1, first.2 ++ second.2) := by
  induction entries with
  | nil => intro taken; rfl
  | cons e rest ih =>
    intro taken
    obtain ⟨key, queue⟩ := e
    rw [List.cons_append]
    by_cases hlt : taken < need
    · rw [evictEntries, if_pos hlt, evictEntries, if_pos hlt]
      dsimp only
      rw [ih]
      dsimp only
      rw [List.map_append, List.sum_append, Nat.add_assoc, List.append_assoc]
      split
      · rfl
      · rw [List.cons_append]
    · have hle : need ≤ taken := Nat.not_lt.mp hlt
      rw [evictEntries_of_le hle, evictEntries_of_le hle]
      dsimp only
      rw [List.map_nil, List.sum_nil, Nat.add_zero, evictEntries_of_le hle]
      rfl

/-- Something is evicted if it is needed and there. -/
theorem evictEntries_eq_nil {size : α → Nat} {need taken : Nat} (hlt : taken < need)
    {entries : List (κ × List α)} (h : (evictEntries size need entries taken).1 = []) :
    allOf entries = [] := by
  induction entries with
  | nil => rfl
  | cons e rest ih =>
    obtain ⟨key, queue⟩ := e
    rw [evictEntries, if_pos hlt] at h
    obtain ⟨hback, hrest⟩ := List.append_eq_nil_iff.mp h
    have hqueue : queue.reverse = [] := by
      cases hq : queue.reverse with
      | nil => rfl
      | cons a as =>
        rw [hq, takeBack, if_pos hlt] at hback
        cases hback
    rw [hback, List.map_nil, List.sum_nil, Nat.add_zero] at hrest
    rw [allOf, List.flatMap_cons, List.reverse_eq_nil_iff.mp hqueue, List.nil_append]
    exact ih hrest

/-- The eviction gets past some queues only if they hold too little, and there are more
elements after them. -/
theorem evictEntries_past_iff (size : α → Nat) (need : Nat) (entries entries' : List (κ × List α))
    (taken : Nat) :
    (evictEntries size need entries'
        (taken + ((evictEntries size need entries taken).1.map size).sum)).1 = [] ↔
      need ≤ taken + sizeOf size entries ∨ allOf entries' = [] := by
  have hsum := sizeOf_evictEntries size need entries taken
  have henough := evictEntries_enough size need entries taken
  by_cases hle : need ≤ taken + ((evictEntries size need entries taken).1.map size).sum
  · rw [evictEntries_of_le hle]
    refine iff_of_true rfl (.inl ?_)
    omega
  · have hnil := henough.resolve_left hle
    rw [hnil, sizeOf_nil] at hsum
    constructor
    · intro h
      exact .inr (evictEntries_eq_nil (Nat.not_le.mp hle) h)
    · rintro (hfits | hnone)
      · omega
      · refine List.eq_nil_iff_forall_not_mem.mpr fun a ha => ?_
        obtain ⟨e, he, hmem⟩ := mem_entries_of_mem_evictEntries entries' _ a ha
        have hall : a ∈ allOf entries' := List.mem_flatMap.mpr ⟨e, he, hmem⟩
        rw [hnone] at hall
        cases hall

/-- Queues by key, that of the highest key first. -/
structure Keyed (κ α : Type) [LinearOrder κ] where
  entries : List (κ × List α)
  descending : entries.Pairwise fun a b => b.1 < a.1

/-- Add `a` to the end of the queue of `key`, which may have to be made. -/
def pushEntry [LinearOrder κ] (key : κ) (a : α) : List (κ × List α) → List (κ × List α)
  | [] => [(key, [a])]
  | (key', queue) :: rest =>
    if key = key' then (key', queue ++ [a]) :: rest
    else if key' < key then (key, [a]) :: (key', queue) :: rest
    else (key', queue) :: pushEntry key a rest

/-- The queue of `key`, which is empty if there is none. -/
def queueOf [LinearOrder κ] (key : κ) : List (κ × List α) → List α
  | [] => []
  | (key', queue) :: rest => if key = key' then queue else queueOf key rest

section

variable [LinearOrder κ] {key k : κ} {a : α} {entries : List (κ × List α)}

theorem queueOf_of_forall_ne (h : ∀ e ∈ entries, key ≠ e.1) : queueOf key entries = [] := by
  induction entries with
  | nil => rfl
  | cons e rest ih =>
    obtain ⟨hne, hrest⟩ := List.forall_mem_cons.mp h
    rw [queueOf, if_neg hne, ih hrest]

theorem queueOf_mem (hsorted : entries.Pairwise fun a b => b.1 < a.1) {queue : List α}
    (h : (key, queue) ∈ entries) : queueOf key entries = queue := by
  induction entries with
  | nil => cases h
  | cons e rest ih =>
    obtain ⟨hlt, hrest⟩ := List.pairwise_cons.mp hsorted
    rcases List.mem_cons.mp h with rfl | hmem
    · rw [queueOf, if_pos rfl]
    · rw [queueOf, if_neg (ne_of_lt (hlt _ hmem)), ih hrest hmem]

theorem mem_pushEntry {e : κ × List α} (h : e ∈ pushEntry key a entries) :
    e.1 = key ∨ e ∈ entries := by
  induction entries with
  | nil =>
    rw [pushEntry, List.mem_singleton] at h
    exact .inl (h ▸ rfl)
  | cons e' rest ih =>
    rw [pushEntry] at h
    split at h
    · rename_i heq
      rcases List.mem_cons.mp h with rfl | hmem
      · exact .inl heq.symm
      · exact .inr (List.mem_cons_of_mem _ hmem)
    · split at h
      · rcases List.mem_cons.mp h with rfl | hmem
        · exact .inl rfl
        · exact .inr hmem
      · rcases List.mem_cons.mp h with rfl | hmem
        · exact .inr List.mem_cons_self
        · exact (ih hmem).imp_right (List.mem_cons_of_mem _)

theorem pairwise_pushEntry (h : entries.Pairwise fun a b => b.1 < a.1) :
    (pushEntry key a entries).Pairwise fun a b => b.1 < a.1 := by
  induction entries with
  | nil => exact List.pairwise_singleton _ _
  | cons e rest ih =>
    obtain ⟨hlt, hrest⟩ := List.pairwise_cons.mp h
    rw [pushEntry]
    split
    · exact List.pairwise_cons.mpr ⟨hlt, hrest⟩
    · rename_i hne
      split
      · rename_i hkey
        refine List.pairwise_cons.mpr ⟨fun e' he' => ?_, h⟩
        rcases List.mem_cons.mp he' with rfl | hmem
        · exact hkey
        · exact (hlt e' hmem).trans hkey
      · rename_i hkey
        refine List.pairwise_cons.mpr ⟨fun e' he' => ?_, ih hrest⟩
        rcases mem_pushEntry he' with heq | hmem
        · rw [heq]
          exact lt_of_le_of_ne (not_lt.mp hkey) hne
        · exact hlt e' hmem

theorem queueOf_pushEntry (h : entries.Pairwise fun a b => b.1 < a.1) :
    queueOf k (pushEntry key a entries) =
      if k = key then queueOf key entries ++ [a] else queueOf k entries := by
  induction entries with
  | nil => by_cases hk : k = key <;> simp [pushEntry, queueOf, hk]
  | cons e rest ih =>
    obtain ⟨hlt, hrest⟩ := List.pairwise_cons.mp h
    rw [pushEntry]
    by_cases heq : key = e.1
    · rw [if_pos heq, queueOf, queueOf, queueOf, heq]
      by_cases hk : k = e.1 <;> simp [hk]
    · rw [if_neg heq]
      by_cases hkey : e.1 < key
      · have hnone : queueOf key (e :: rest) = [] := by
          refine queueOf_of_forall_ne fun e' he' => ?_
          rcases List.mem_cons.mp he' with rfl | hmem
          · exact heq
          · exact (ne_of_lt ((hlt e' hmem).trans hkey)).symm
        rw [if_pos hkey, hnone]
        by_cases hk : k = key <;> simp [queueOf, hk]
      · rw [if_neg hkey, queueOf, ih hrest, queueOf, queueOf, if_neg heq]
        by_cases hk : k = key
        · rw [if_pos hk, if_neg (hk ▸ heq), if_pos hk]
        · rw [if_neg hk, if_neg hk]

theorem pairwise_evictEntries {size : α → Nat} {need taken : Nat}
    (h : entries.Pairwise fun a b => b.1 < a.1) :
    (evictEntries size need entries taken).2.Pairwise fun a b => b.1 < a.1 := by
  have hkeys : (entries.map Prod.fst).Pairwise fun a b => b < a := List.pairwise_map.mpr h
  exact List.pairwise_map.mp (hkeys.sublist (evictEntries_sublist size need entries taken))

/-- Nothing is left or evicted that has a key above all keys. -/
theorem queueOf_evictEntries_eq_nil {size : α → Nat} {need taken : Nat} {k : κ}
    (h : ∀ e ∈ entries, e.1 < k) : queueOf k (evictEntries size need entries taken).2 = [] := by
  refine queueOf_of_forall_ne fun e he => ?_
  have hmem : e.1 ∈ entries.map Prod.fst :=
    (evictEntries_sublist size need entries taken).subset (List.mem_map_of_mem he)
  obtain ⟨e', he', heq⟩ := List.mem_map.mp hmem
  rw [← heq]
  exact (ne_of_lt (h e' he')).symm

theorem filter_evictEntries_eq_nil {size : α → Nat} {need taken : Nat} {keyOf : α → Option κ} {k : κ}
    (h : ∀ e ∈ entries, e.1 < k) (hkey : ∀ e ∈ entries, ∀ a ∈ e.2, keyOf a = some e.1) :
    (evictEntries size need entries taken).1.filter (fun a => keyOf a == some k) = [] := by
  refine List.filter_eq_nil_iff.mpr fun a ha => ?_
  obtain ⟨e, he, ha'⟩ := mem_entries_of_mem_evictEntries entries _ a ha
  rw [hkey e he a ha', beq_iff_eq, Option.some.injEq]
  exact ne_of_lt (h e he)

/-- Of each queue some elements are left, and the ones after them are evicted, the last one
first. -/
theorem queueOf_evictEntries {size : α → Nat} {need : Nat} {keyOf : α → Option κ}
    (h : entries.Pairwise fun a b => b.1 < a.1)
    (hkey : ∀ e ∈ entries, ∀ a ∈ e.2, keyOf a = some e.1) (k : κ) :
    ∀ taken, queueOf k entries = queueOf k (evictEntries size need entries taken).2 ++
      ((evictEntries size need entries taken).1.filter fun a => keyOf a == some k).reverse := by
  induction entries with
  | nil => intro taken; rfl
  | cons e rest ih =>
    obtain ⟨hlt, hrest⟩ := List.pairwise_cons.mp h
    obtain ⟨hkeyFirst, hkeyRest⟩ := List.forall_mem_cons.mp hkey
    intro taken
    unfold evictEntries
    split
    · dsimp only
      have hqueue := append_reverse_takeBack size need taken e.2
      have hback : ∀ a ∈ takeBack size need e.2.reverse taken, keyOf a = some e.1 := fun a ha =>
        hkeyFirst a (List.mem_reverse.mp ((takeBack_prefixOf size need e.2.reverse taken).subset ha))
      set back := takeBack size need e.2.reverse taken with hbackDef
      set left := e.2.take (e.2.length - back.length) with hleft
      rw [List.filter_append, List.reverse_append]
      by_cases hk : k = e.1
      · have hall : back.filter (fun a => keyOf a == some k) = back :=
          List.filter_eq_self.mpr fun a ha => by rw [hback a ha, hk, beq_self_eq_true]
        have habove : ∀ e' ∈ rest, e'.1 < k := fun e' he' => hk ▸ hlt e' he'
        rw [hall, filter_evictEntries_eq_nil habove hkeyRest, List.reverse_nil, List.nil_append, queueOf, if_pos hk]
        split
        · rename_i hempty
          rw [List.isEmpty_iff] at hempty
          rw [queueOf_evictEntries_eq_nil habove, List.nil_append, ← hqueue, hempty, List.nil_append]
        · rw [queueOf, if_pos hk, hqueue]
      · have hnone : back.filter (fun a => keyOf a == some k) = [] := by
          refine List.filter_eq_nil_iff.mpr fun a ha => ?_
          rw [hback a ha, beq_iff_eq, Option.some.injEq]
          exact fun heq => hk heq.symm
        rw [hnone, List.reverse_nil, List.append_nil, queueOf, if_neg hk,
          ih hrest hkeyRest (taken + (back.map size).sum)]
        split
        · rfl
        · rw [queueOf, if_neg hk]
    · rw [List.filter_nil, List.reverse_nil, List.append_nil]

/-- What is evicted has a key that is not below those that are left. -/
theorem evictEntries_highest {size : α → Nat} {need : Nat} {keyOf : α → Option κ}
    (h : entries.Pairwise fun a b => b.1 < a.1)
    (hkey : ∀ e ∈ entries, ∀ a ∈ e.2, keyOf a = some e.1) :
    ∀ taken, ∀ a ∈ (evictEntries size need entries taken).1,
      ∀ e ∈ (evictEntries size need entries taken).2, ∃ k, keyOf a = some k ∧ e.1 ≤ k := by
  induction entries with
  | nil => intro taken a ha; cases ha
  | cons e rest ih =>
    obtain ⟨hlt, hrest⟩ := List.pairwise_cons.mp h
    obtain ⟨hkeyFirst, hkeyRest⟩ := List.forall_mem_cons.mp hkey
    intro taken a ha e' he'
    have hle : ∀ e'' ∈ e :: rest, e''.1 ≤ e.1 := by
      intro e'' he''
      rcases List.mem_cons.mp he'' with rfl | hmem
      · exact le_rfl
      · exact (hlt e'' hmem).le
    by_cases htaken : taken < need
    · have hback : ∀ a ∈ takeBack size need e.2.reverse taken, keyOf a = some e.1 := fun a ha =>
        hkeyFirst a (List.mem_reverse.mp ((takeBack_prefixOf size need e.2.reverse taken).subset ha))
      have hmem : e'.1 ∈ (e :: rest).map Prod.fst :=
        (evictEntries_sublist size need (e :: rest) taken).subset (List.mem_map_of_mem he')
      obtain ⟨e'', he'', heq⟩ := List.mem_map.mp hmem
      unfold evictEntries at ha he'
      rw [if_pos htaken] at ha he'
      dsimp only at ha he'
      rcases List.mem_append.mp ha with ha | ha
      · exact ⟨e.1, hback a ha, heq ▸ hle e'' he''⟩
      · -- More is evicted only after all of the first queue.
        have hall : takeBack size need e.2.reverse taken = e.2.reverse := by
          rcases takeBack_enough size need e.2.reverse taken with henough | hall
          · rw [evictEntries_of_le henough] at ha
            cases ha
          · exact hall
        have hempty : (e.2.take (e.2.length - (takeBack size need e.2.reverse taken).length)).isEmpty
            = true := by
          rw [hall, List.length_reverse, Nat.sub_self]
          rfl
        rw [if_pos hempty] at he'
        exact ih hrest hkeyRest _ a ha e' he'
    · rw [evictEntries_of_le (Nat.not_lt.mp htaken)] at ha
      cases ha

/-- The queues of the keys from `key` on come before the others. -/
theorem filter_append_filter (h : entries.Pairwise fun a b => b.1 < a.1) (key : κ) :
    (entries.filter fun e => key ≤ e.1) ++ (entries.filter fun e => e.1 < key) = entries := by
  induction entries with
  | nil => rfl
  | cons e rest ih =>
    obtain ⟨hlt, hrest⟩ := List.pairwise_cons.mp h
    by_cases he : key ≤ e.1
    · rw [List.filter_cons_of_pos (by simpa using he),
        List.filter_cons_of_neg (by simpa using he), List.cons_append, ih hrest]
    · have hbelow : ∀ e' ∈ e :: rest, e'.1 < key := by
        intro e' he'
        rcases List.mem_cons.mp he' with rfl | hmem
        · exact not_le.mp he
        · exact (hlt e' hmem).trans (not_le.mp he)
      have hnone : (e :: rest).filter (fun e => key ≤ e.1) = [] :=
        List.filter_eq_nil_iff.mpr fun e' he' => by simpa using hbelow e' he'
      have hall : (e :: rest).filter (fun e => e.1 < key) = e :: rest :=
        List.filter_eq_self.mpr fun e' he' => by simpa using hbelow e' he'
      rw [hnone, hall, List.nil_append]

theorem sizeOf_pushEntry (size : α → Nat) :
    sizeOf size (pushEntry key a entries) = sizeOf size entries + size a := by
  induction entries with
  | nil => simp [pushEntry]
  | cons e rest ih =>
    rw [pushEntry]
    by_cases heq : key = e.1
    · simp only [if_pos heq, sizeOf_cons, List.map_append, List.map_cons, List.map_nil,
        List.sum_append, List.sum_cons, List.sum_nil]
      omega
    · by_cases hlt : e.1 < key
      · simp only [if_neg heq, if_pos hlt, sizeOf_cons, List.map_cons, List.map_nil,
          List.sum_cons, List.sum_nil]
        omega
      · simp only [if_neg heq, if_neg hlt, sizeOf_cons, ih]
        omega

end

namespace Keyed

variable [LinearOrder κ]

def empty : Keyed κ α where
  entries := []
  descending := .nil

def maxKey? (q : Keyed κ α) : Option κ := q.entries.head?.map Prod.fst

def queue (q : Keyed κ α) (key : κ) : List α := queueOf key q.entries

def all (q : Keyed κ α) : List α := allOf q.entries

def size (f : α → Nat) (q : Keyed κ α) : Nat := sizeOf f q.entries

def pushBack (q : Keyed κ α) (key : κ) (a : α) : Keyed κ α where
  entries := pushEntry key a q.entries
  descending := pairwise_pushEntry q.descending

/-- Take the first element off the queue of `key`, which stays there when it is empty. -/
def popFront (q : Keyed κ α) (key : κ) : Option α × Keyed κ α :=
  ((q.queue key).head?,
    { entries := q.entries.map fun e => (e.1, if key = e.1 then e.2.tail else e.2)
      descending := List.pairwise_map.mpr q.descending })

/-- The elements of the keys below `key`. -/
def below (q : Keyed κ α) (key : κ) : List α := allOf (q.entries.filter fun e => e.1 < key)

/-- Keep the queues of the keys from `key` on. -/
def dropBelow (q : Keyed κ α) (key : κ) : Keyed κ α where
  entries := q.entries.filter fun e => key ≤ e.1
  descending := q.descending.filter _

/-- Evict elements of size `need` together, or more, and give the evicted ones, too. -/
def evict (f : α → Nat) (need : Nat) (q : Keyed κ α) : List α × Keyed κ α :=
  ((evictEntries f need q.entries 0).1,
    { entries := (evictEntries f need q.entries 0).2
      descending := pairwise_evictEntries q.descending })

variable {q : Keyed κ α} {key k : κ} {a : α} {f : α → Nat}

/-! ## The queue of one key -/

@[simp] theorem queue_empty : (empty : Keyed κ α).queue k = [] := rfl

theorem queue_pushBack :
    (q.pushBack key a).queue k = if k = key then q.queue key ++ [a] else q.queue k :=
  queueOf_pushEntry q.descending

theorem queue_popFront :
    (q.popFront key).2.queue k = if k = key then (q.queue key).tail else q.queue k := by
  obtain ⟨entries, descending⟩ := q
  show queueOf k (entries.map fun e => (e.1, if key = e.1 then e.2.tail else e.2)) =
    if k = key then (queueOf key entries).tail else queueOf k entries
  clear descending
  induction entries with
  | nil => simp [queueOf]
  | cons e rest ih =>
    rw [List.map_cons, queueOf, queueOf, queueOf, ih]
    by_cases hk : k = key
    · subst hk
      by_cases he : k = e.1 <;> simp [he]
    · rw [if_neg hk, if_neg hk]
      by_cases he : k = e.1
      · have hne : key ≠ e.1 := fun h => hk (he.trans h.symm)
        rw [if_pos he, if_pos he, if_neg hne]
      · rw [if_neg he, if_neg he]

theorem queue_dropBelow : (q.dropBelow key).queue k = if key ≤ k then q.queue k else [] := by
  obtain ⟨entries, descending⟩ := q
  show queueOf k (entries.filter fun e => key ≤ e.1) = if key ≤ k then queueOf k entries else []
  clear descending
  induction entries with
  | nil => simp [queueOf]
  | cons e rest ih =>
    by_cases he : key ≤ e.1
    · rw [List.filter_cons_of_pos (by simpa using he), queueOf, queueOf, ih]
      by_cases hk : k = e.1
      · rw [if_pos hk, if_pos hk, if_pos (hk ▸ he)]
      · rw [if_neg hk, if_neg hk]
    · rw [List.filter_cons_of_neg (by simpa using he), ih, queueOf]
      by_cases hk : k = e.1
      · rw [if_neg (hk ▸ he), if_neg (hk ▸ he)]
      · rw [if_neg hk]

/-- What is evicted of a queue is its end, the last one first. -/
theorem queue_evict {keyOf : α → Option κ} (hkey : ∀ k, ∀ a ∈ q.queue k, keyOf a = some k)
    (need : Nat) (k : κ) :
    q.queue k = (q.evict f need).2.queue k ++
      ((q.evict f need).1.filter fun a => keyOf a == some k).reverse := by
  refine queueOf_evictEntries q.descending (fun e he a ha => hkey e.1 a ?_) k 0
  rw [queue, queueOf_mem q.descending he]
  exact ha

/-! ## All elements -/

theorem mem_all : a ∈ q.all ↔ ∃ k, a ∈ q.queue k := by
  constructor
  · intro ha
    obtain ⟨e, he, hmem⟩ := List.mem_flatMap.mp ha
    refine ⟨e.1, ?_⟩
    rw [queue, queueOf_mem q.descending he]
    exact hmem
  · rintro ⟨k, hmem⟩
    by_cases hkey : ∃ e ∈ q.entries, k = e.1
    · obtain ⟨e, he, rfl⟩ := hkey
      rw [queue, queueOf_mem q.descending he] at hmem
      exact List.mem_flatMap.mpr ⟨e, he, hmem⟩
    · have hne : ∀ e ∈ q.entries, k ≠ e.1 := fun e he heq => hkey ⟨e, he, heq⟩
      rw [queue, queueOf_of_forall_ne hne] at hmem
      cases hmem

theorem le_maxKey {max : κ} (hmax : q.maxKey? = some max) (ha : a ∈ q.queue k) : k ≤ max := by
  obtain ⟨entries, descending⟩ := q
  cases entries with
  | nil => cases hmax
  | cons e rest =>
    obtain rfl := Option.some.inj hmax
    by_cases hkey : ∃ e' ∈ e :: rest, k = e'.1
    · obtain ⟨e', he', rfl⟩ := hkey
      rcases List.mem_cons.mp he' with rfl | hmem
      · exact le_rfl
      · exact ((List.pairwise_cons.mp descending).1 e' hmem).le
    · have hne : ∀ e' ∈ e :: rest, k ≠ e'.1 := fun e' he' heq => hkey ⟨e', he', heq⟩
      rw [queue, queueOf_of_forall_ne hne] at ha
      cases ha

section

variable {keyOf : α → Option κ} (hkey : ∀ k, ∀ a ∈ q.queue k, keyOf a = some k)
include hkey

theorem keyOf_entries : ∀ e ∈ q.entries, ∀ a ∈ e.2, keyOf a = some e.1 := by
  intro e he a ha
  refine hkey e.1 a ?_
  rw [queue, queueOf_mem q.descending he]
  exact ha

/-- What is evicted has a key that is not below those of the elements that are left. -/
theorem evict_highest {need : Nat} {a : α} (ha : a ∈ (q.evict f need).1) {k : κ} {a' : α}
    (ha' : a' ∈ (q.evict f need).2.queue k) : ∃ k', keyOf a = some k' ∧ k ≤ k' := by
  by_cases hkeys : ∃ e ∈ (q.evict f need).2.entries, k = e.1
  · obtain ⟨e, he, rfl⟩ := hkeys
    exact evictEntries_highest q.descending (keyOf_entries hkey) 0 a ha e he
  · have hne : ∀ e ∈ (q.evict f need).2.entries, k ≠ e.1 := fun e he heq => hkeys ⟨e, he, heq⟩
    rw [queue, queueOf_of_forall_ne hne] at ha'
    cases ha'

/-- Nothing below `key` is evicted exactly if the elements from `key` on are enough, or there
are no others. -/
theorem evict_from_iff (need : Nat) (key : κ) :
    (∀ a ∈ (q.evict f need).1, ∃ k, keyOf a = some k ∧ key ≤ k) ↔
      need ≤ (q.dropBelow key).size f ∨ q.below key = [] := by
  have hentries := keyOf_entries hkey
  have happend := evictEntries_append f need (q.entries.filter fun e => key ≤ e.1)
    (q.entries.filter fun e => e.1 < key) 0
  rw [filter_append_filter q.descending] at happend
  have hpast := evictEntries_past_iff f need (q.entries.filter fun e => key ≤ e.1)
    (q.entries.filter fun e => e.1 < key) 0
  have hevict : (q.evict f need).1 = (evictEntries f need q.entries 0).1 := rfl
  rw [hevict, happend]
  dsimp only
  rw [Nat.zero_add] at hpast ⊢
  show _ ↔ need ≤ sizeOf f (q.entries.filter fun e => key ≤ e.1) ∨
    allOf (q.entries.filter fun e => e.1 < key) = []
  rw [Nat.zero_add] at hpast
  rw [← hpast]
  constructor
  · intro h
    refine List.eq_nil_iff_forall_not_mem.mpr fun a ha => ?_
    obtain ⟨k, hk, hle⟩ := h a (List.mem_append_right _ ha)
    obtain ⟨e, he, hmem⟩ := mem_entries_of_mem_evictEntries _ _ a ha
    obtain ⟨he, hlt⟩ := List.mem_filter.mp he
    rw [hentries e he a hmem, Option.some.injEq] at hk
    exact absurd hle (not_le.mpr (hk ▸ of_decide_eq_true hlt))
  · intro hnone a ha
    rw [hnone, List.append_nil] at ha
    obtain ⟨e, he, hmem⟩ := mem_entries_of_mem_evictEntries _ _ a ha
    obtain ⟨he, hle⟩ := List.mem_filter.mp he
    exact ⟨e.1, hentries e he a hmem, of_decide_eq_true hle⟩

end

@[simp] theorem size_empty : (empty : Keyed κ α).size f = 0 := rfl

theorem size_pushBack (f : α → Nat) (q : Keyed κ α) (key : κ) (a : α) :
    (q.pushBack key a).size f = q.size f + f a :=
  sizeOf_pushEntry f

theorem size_evict (need : Nat) :
    (q.evict f need).2.size f + ((q.evict f need).1.map f).sum = q.size f :=
  sizeOf_evictEntries f need q.entries 0

theorem evict_enough (need : Nat) :
    need ≤ ((q.evict f need).1.map f).sum ∨ (q.evict f need).2 = empty := by
  rcases evictEntries_enough f need q.entries 0 with h | h
  · left
    rw [Nat.zero_add] at h
    exact h
  · right
    simp only [evict, h]
    rfl

theorem size_popFront (f : α → Nat) (q : Keyed κ α) (key : κ) :
    (q.popFront key).2.size f + (((q.popFront key).1.map f).getD 0) = q.size f := by
  obtain ⟨entries, descending⟩ := q
  show sizeOf f (entries.map fun e => (e.1, if key = e.1 then e.2.tail else e.2)) +
    (((queueOf key entries).head?.map f).getD 0) = sizeOf f entries
  induction entries with
  | nil => rfl
  | cons e rest ih =>
    obtain ⟨hlt, hrest⟩ := List.pairwise_cons.mp descending
    rw [List.map_cons, sizeOf_cons, sizeOf_cons, queueOf]
    by_cases he : key = e.1
    · have hkept : (rest.map fun e => (e.1, if key = e.1 then e.2.tail else e.2)) = rest := by
        conv_rhs => rw [← List.map_id rest]
        refine List.map_congr_left fun e' he' => ?_
        rw [if_neg (he ▸ (ne_of_lt (hlt e' he')).symm)]
        rfl
      rw [hkept]
      simp only [if_pos he]
      cases e.2 with
      | nil => simp
      | cons a queue =>
        simp only [List.tail_cons, List.head?_cons, Option.map_some, Option.getD_some,
          List.map_cons, List.sum_cons]
        omega
    · have h := ih hrest
      rw [if_neg he]
      simp only [if_neg he]
      omega

theorem size_dropBelow (f : α → Nat) (q : Keyed κ α) (key : κ) :
    (q.dropBelow key).size f + ((q.below key).map f).sum = q.size f := by
  obtain ⟨entries, descending⟩ := q
  show sizeOf f (entries.filter fun e => key ≤ e.1) +
    sizeOf f (entries.filter fun e => e.1 < key) = sizeOf f entries
  clear descending
  induction entries with
  | nil => rfl
  | cons e rest ih =>
    by_cases he : key ≤ e.1
    · rw [List.filter_cons_of_pos (by simpa using he),
        List.filter_cons_of_neg (by simpa using he), sizeOf_cons, sizeOf_cons]
      omega
    · rw [List.filter_cons_of_neg (by simpa using he),
        List.filter_cons_of_pos (by simpa using he), sizeOf_cons, sizeOf_cons]
      omega

end Keyed

end Queue
end HotStuffRs
