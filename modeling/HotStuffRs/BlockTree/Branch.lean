import HotStuffRs.BlockTree.WellFormed
import Mathlib.Data.Fintype.EquivFin

namespace HotStuffRs
namespace BlockTree

open Forest

variable {s s' : BlockTree}

/-! ## Depth-first search -/

theorem depthFirst_cons_eq_ok {fuel : Nat} {b : CryptoHash} {stack branch : List CryptoHash} :
    depthFirst s fuel (b :: stack) = .ok branch ↔
      ∃ fuel' rest, fuel = fuel' + 1 ∧
        depthFirst s fuel' ((s.childrenOf b).reverse ++ stack) = .ok rest ∧ branch = b :: rest := by
  cases fuel with
  | zero => simp [depthFirst]
  | succ fuel =>
    simp only [depthFirst, ok?_kv_children, Result.bind_eq_ok, Result.pure_eq, Except.ok.injEq]
    constructor
    · rintro ⟨rest, hrest, rfl⟩
      exact ⟨fuel, rest, rfl, hrest, rfl⟩
    · rintro ⟨_, rest, hfuel, hrest, rfl⟩
      cases hfuel
      exact ⟨rest, hrest, rfl⟩

@[simp] theorem depthFirst_nil (fuel : Nat) : depthFirst s fuel [] = .ok [] := by
  cases fuel <;> rfl

/-- The search does the same in a tree where the blocks it finds have the same children. -/
theorem depthFirst_congr {fuel : Nat} {stack branch : List CryptoHash}
    (h : depthFirst s fuel stack = .ok branch)
    (heq : ∀ x ∈ branch, s'.childrenOf x = s.childrenOf x) :
    depthFirst s' fuel stack = .ok branch := by
  induction fuel generalizing stack branch with
  | zero =>
    cases stack with
    | nil => simpa using h
    | cons b stack => simp [depthFirst] at h
  | succ fuel ih =>
    cases stack with
    | nil => simpa using h
    | cons b stack =>
      obtain ⟨_, rest, hfuel, hrest, rfl⟩ := depthFirst_cons_eq_ok.mp h
      cases hfuel
      refine depthFirst_cons_eq_ok.mpr ⟨fuel, rest, rfl, ?_, rfl⟩
      rw [heq b List.mem_cons_self]
      exact ih hrest fun x hx => heq x (List.mem_cons_of_mem _ hx)

theorem depthFirst_succ {n : Nat} {stack branch : List CryptoHash}
    (h : depthFirst s n stack = .ok branch) : depthFirst s (n + 1) stack = .ok branch := by
  induction n generalizing stack branch with
  | zero =>
    cases stack with
    | nil => simpa using h
    | cons b stack => simp [depthFirst] at h
  | succ n ih =>
    cases stack with
    | nil => simpa using h
    | cons b stack =>
      obtain ⟨_, rest, hfuel, hrest, rfl⟩ := depthFirst_cons_eq_ok.mp h
      cases hfuel
      exact depthFirst_cons_eq_ok.mpr ⟨n + 1, rest, rfl, ih hrest, rfl⟩

theorem depthFirst_mono {n m : Nat} {stack branch : List CryptoHash} (hnm : n ≤ m)
    (h : depthFirst s n stack = .ok branch) : depthFirst s m stack = .ok branch := by
  induction m, hnm using Nat.le_induction with
  | base => exact h
  | succ m _ ih => exact depthFirst_succ ih

/-- Searching two stacks one after the other. -/
theorem depthFirst_append {n m : Nat} {stack stack' branch branch' : List CryptoHash}
    (h : depthFirst s n stack = .ok branch) (h' : depthFirst s m stack' = .ok branch') :
    depthFirst s (n + m) (stack ++ stack') = .ok (branch ++ branch') := by
  induction n generalizing stack branch with
  | zero =>
    cases stack with
    | nil =>
      obtain rfl : [] = branch := by simpa using h
      simpa using h'
    | cons b stack => simp [depthFirst] at h
  | succ n ih =>
    cases stack with
    | nil =>
      obtain rfl : [] = branch := by simpa using h
      exact depthFirst_mono (by omega) h'
    | cons b stack =>
      obtain ⟨_, rest, hfuel, hrest, rfl⟩ := depthFirst_cons_eq_ok.mp h
      cases hfuel
      refine depthFirst_cons_eq_ok.mpr ⟨n + m, rest ++ branch', by omega, ?_, rfl⟩
      have := ih hrest
      rwa [List.append_assoc] at this

/-- The search finds the branches of the blocks on the stack. -/
theorem mem_depthFirst (wf : s.WellFormed) {fuel : Nat} {stack branch : List CryptoHash}
    (h : depthFirst s fuel stack = .ok branch) {x : CryptoHash} :
    x ∈ branch ↔ ∃ root ∈ stack, Extends s.up x root := by
  induction fuel generalizing stack branch with
  | zero =>
    cases stack with
    | nil =>
      obtain rfl : [] = branch := by simpa using h
      simp
    | cons b stack => simp [depthFirst] at h
  | succ fuel ih =>
    cases stack with
    | nil =>
      obtain rfl : [] = branch := by simpa using h
      simp
    | cons b stack =>
      obtain ⟨_, rest, hfuel, hrest, rfl⟩ := depthFirst_cons_eq_ok.mp h
      cases hfuel
      simp only [List.mem_cons, ih hrest, List.mem_append, List.mem_reverse, wf.mem_children,
        or_and_right, exists_or, exists_eq_left]
      rw [Extends.iff_child, or_assoc, eq_comm]
      refine or_congr_right (or_congr_left (exists_congr fun c => and_comm))

/-- With enough fuel the search ends. -/
theorem exists_depthFirst (wf : s.WellFormed) (stack : List CryptoHash) :
    ∃ n branch, depthFirst s n stack = .ok branch := by
  have hroots : ∀ stack : List CryptoHash, (∀ b ∈ stack, ∃ n branch,
      depthFirst s n [b] = .ok branch) → ∃ n branch, depthFirst s n stack = .ok branch := by
    intro stack h
    induction stack with
    | nil => exact ⟨0, [], rfl⟩
    | cons b stack ih =>
      obtain ⟨n, branch, hb⟩ := h b List.mem_cons_self
      obtain ⟨m, branch', hstack⟩ := ih fun b' hb' => h b' (List.mem_cons_of_mem _ hb')
      exact ⟨n + m, branch ++ branch', depthFirst_append hb hstack⟩
  refine hroots stack fun b hb => ?_
  clear hb
  induction b using wf.acyclic.down.induction with
  | _ b ih =>
    obtain ⟨n, branch, h⟩ := hroots (s.childrenOf b).reverse fun c hc =>
      ih c ((wf.mem_children b c).mp (List.mem_reverse.mp hc))
    exact ⟨n + 1, b :: branch, depthFirst_cons_eq_ok.mpr ⟨n, branch, rfl, by simpa using h, rfl⟩⟩

theorem eventually_depthFirst (wf : s.WellFormed) (stack : List CryptoHash) :
    ∃ branch, Result.Eventually (fun fuel => depthFirst s fuel stack) branch := by
  obtain ⟨n, branch, h⟩ := exists_depthFirst wf stack
  exact ⟨branch, .of_mono h fun m hm => depthFirst_mono hm⟩

end BlockTree
end HotStuffRs
