import Mathlib.Data.List.Induction

/-
State machines over key-value states.

A step of such a machine lays an overlay on the state, which says for each key whether its value
stays, goes, or is replaced.  To read the state after some steps it is enough to have the
overlays: the newest that says something about a key decides.
-/

namespace HotStuffRs
namespace Overlay

variable {K V B : Type}

/-- What becomes of the value of each key, if anything. -/
abbrev Changes (K V : Type) := K → Option (Option V)

/-- The state with `changes` made. -/
def apply (state : K → Option V) (changes : Changes K V) : K → Option V :=
  fun key => (changes key).getD (state key)

variable (step : B → (K → Option V) → Changes K V)

/-- The state after the inputs `bs`, oldest first. -/
def run (state : K → Option V) (bs : List B) : K → Option V :=
  bs.foldl (fun state b => apply state (step b state)) state

variable {step} {state : K → Option V} {bs : List B}

@[simp] theorem run_nil : run step state [] = state := rfl

theorem run_append (bs' : List B) : run step state (bs ++ bs') = run step (run step state bs) bs' :=
  List.foldl_append

theorem run_snoc (b : B) : run step state (bs ++ [b]) =
    apply (run step state bs) (step b (run step state bs)) := by
  rw [run_append]
  rfl

/-- A step only has to be right about the states that it comes to. -/
theorem run_congr {step' : B → (K → Option V) → Changes K V}
    (h : ∀ b ∈ bs, ∀ state, step b state = step' b state) : run step state bs = run step' state bs := by
  induction bs using List.reverseRecOn with
  | nil => rfl
  | append_singleton bs b ih =>
    rw [run_snoc, run_snoc, ih fun b' hb' => h b' (List.mem_append_left _ hb'),
      h b (List.mem_append_right _ List.mem_cons_self)]

theorem run_map {A : Type} (f : A → B) (as : List A) :
    run step state (as.map f) = run (fun a => step (f a)) state as := by
  rw [run, List.foldl_map]
  rfl

/-- `changes` has for each of `bs` the overlay of its step. -/
def Recorded (step : B → (K → Option V) → Changes K V) (state : K → Option V)
    (changes : B → Changes K V) (bs : List B) : Prop :=
  ∀ before b, before ++ [b] <+: bs → changes b = step b (run step state before)

/-- Reading through the recorded overlays, newest first, is reading the state that the machine
has come to. -/
theorem run_eq_of_recorded (changes : B → Changes K V) (h : Recorded step state changes bs)
    (key : K) :
    run step state bs key = (bs.reverse.findSome? fun b => changes b key).getD (state key) := by
  induction bs using List.reverseRecOn with
  | nil => rfl
  | append_singleton bs b ih =>
    have hbefore := ih fun before c hc => h before c (hc.trans (List.prefix_append ..))
    rw [run_snoc, ← h bs b List.prefix_rfl, List.reverse_append, List.reverse_singleton,
      List.singleton_append, List.findSome?_cons, apply]
    cases changes b key with
    | some value => rfl
    | none => exact hbefore

end Overlay
end HotStuffRs
