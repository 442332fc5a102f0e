import HotStuffRs.Kv.Process

/-
Total correctness of processes with fuel.

The search loops of a process take fuel.  The process is right if some amount of fuel is enough,
and any greater amount gives the same.
-/

namespace HotStuffRs
namespace Kv

namespace Process

variable {ε M N A K α β : Type} {V : K → Type}

/-- With enough fuel `m` ends normally, and `Q` holds where it does. -/
def Ends (m : Nat → Process ε M A V α) (Q : α → World M A V → Prop) (w : World M A V) : Prop :=
  ∃ a w', Q a w' ∧ ∃ n, ∀ fuel ≥ n, m fuel w = .ok a w'

namespace Ends

variable {m : Nat → Process ε M A V α} {Q Q' : α → World M A V → Prop} {w : World M A V}

theorem mono (h : Ends m Q w) (hQ : ∀ a w', Q a w' → Q' a w') : Ends m Q' w := by
  obtain ⟨a, w', hw', hm⟩ := h
  exact ⟨a, w', hQ a w' hw', hm⟩

/-- Code that takes no fuel is run as it is. -/
theorem of_run {m : Process ε M A V α} {a : α} {w' : World M A V} (h : m w = .ok a w')
    (hQ : Q a w') : Ends (fun _ => m) Q w :=
  ⟨a, w', hQ, 0, fun _ _ => h⟩

theorem pure {a : α} (h : Q a w) : Ends (fun _ => Pure.pure a : Nat → Process ε M A V α) Q w :=
  of_run rfl h

theorem bind {f : Nat → α → Process ε M A V β} {Q : β → World M A V → Prop}
    (h : Ends m (fun a w' => Ends (fun fuel => f fuel a) Q w') w) :
    Ends (fun fuel => m fuel >>= f fuel) Q w := by
  obtain ⟨a, w₁, ⟨b, w₂, hb, k, hf⟩, n, hm⟩ := h
  refine ⟨b, w₂, hb, max n k, fun fuel hfuel => ?_⟩
  have hn : fuel ≥ n := Nat.le_trans (Nat.le_max_left n k) hfuel
  have hk : fuel ≥ k := Nat.le_trans (Nat.le_max_right n k) hfuel
  show EStateM.bind (m fuel) (f fuel) w = .ok b w₂
  rw [EStateM.bind, hm fuel hn]
  exact hf fuel hk

theorem lift_bind {x : Nat → Except ε α} {f : Nat → α → Process ε M A V β}
    {Q : β → World M A V → Prop} {a : α} (hx : ∃ n, ∀ fuel ≥ n, x fuel = .ok a)
    (h : Ends (fun fuel => f fuel a) Q w) : Ends (fun fuel => lift (x fuel) >>= f fuel) Q w := by
  refine bind ⟨a, w, h, ?_⟩
  obtain ⟨n, hn⟩ := hx
  refine ⟨n, fun fuel hfuel => ?_⟩
  show lift (x fuel) w = .ok a w
  rw [hn fuel hfuel]
  rfl

/-- As `lift_bind`, for what takes no fuel. -/
theorem ok_bind {x : Except ε α} {f : Nat → α → Process ε M A V β} {Q : β → World M A V → Prop}
    {a : α} (hx : x = .ok a) (h : Ends (fun fuel => f fuel a) Q w) :
    Ends (fun fuel => lift x >>= f fuel) Q w :=
  lift_bind (x := fun _ => x) ⟨0, fun _ _ => hx⟩ h

theorem mem_bind {f : Nat → M → Process ε M A V β} {Q : β → World M A V → Prop}
    (h : Ends (fun fuel => f fuel w.mem) Q w) : Ends (fun fuel => mem >>= f fuel) Q w := h

theorem store_bind [DecidableEq K] {f : Nat → Store V → Process ε M A V β}
    {Q : β → World M A V → Prop} (h : Ends (fun fuel => f fuel w.tree) Q w) :
    Ends (fun fuel => store >>= f fuel) Q w := h

theorem setMem_bind {x : M} {f : Nat → Unit → Process ε M A V β} {Q : β → World M A V → Prop}
    (h : Ends (fun fuel => f fuel ()) Q (w.setMem x)) :
    Ends (fun fuel => setMem x >>= f fuel) Q w := h

theorem act_bind {a : A} {f : Nat → Unit → Process ε M A V β} {Q : β → World M A V → Prop}
    (h : Ends (fun fuel => f fuel ()) Q (w.emit (.act a))) :
    Ends (fun fuel => act a >>= f fuel) Q w := h

theorem write_bind {wb : Batch V} {f : Nat → Unit → Process ε M A V β}
    {Q : β → World M A V → Prop} (h : Ends (fun fuel => f fuel ()) Q (w.emit (.write wb))) :
    Ends (fun fuel => write wb >>= f fuel) Q w := h

theorem pure_bind {a : α} {f : Nat → α → Process ε M A V β} {Q : β → World M A V → Prop}
    (h : Ends (fun fuel => f fuel a) Q w) : Ends (fun fuel => Pure.pure a >>= f fuel) Q w := h

theorem ite {c : Prop} [Decidable c] {m' : Nat → Process ε M A V α} (ht : c → Ends m Q w)
    (hf : ¬c → Ends m' Q w) : Ends (fun fuel => if c then m fuel else m' fuel) Q w := by
  split
  · exact ht ‹_›
  · exact hf ‹_›

/-- Two checks, of which the second is made only if the first holds. -/
theorem both {x y : Except ε Bool} {f : Nat → Bool → Process ε M A V β}
    {Q : β → World M A V → Prop} (hx : ∃ a, x = .ok a) (hy : ∃ b, y = .ok b)
    (htrue : x = .ok true → y = .ok true → Ends (fun fuel => f fuel true) Q w)
    (hfalse : Ends (fun fuel => f fuel false) Q w) :
    Ends (fun fuel => do
      let a ← lift x
      let b ← if a then lift y else Pure.pure false
      f fuel b) Q w := by
  obtain ⟨a, ha⟩ := hx
  obtain ⟨b, hb⟩ := hy
  refine ok_bind ha ?_
  cases a with
  | false => exact hfalse
  | true =>
    refine ok_bind hb ?_
    cases b with
    | false => exact hfalse
    | true => exact htrue ha hb

theorem zoom {get : M → N} {set : N → M → M} {m : Nat → Process ε N A V α}
    (h : Ends m (fun a w' =>
      Q a { mem := set w'.mem w.mem, base := w'.base, effects := w'.effects })
        { mem := get w.mem, base := w.base, effects := w.effects }) :
    Ends (fun fuel => zoom get set (m fuel)) Q w := by
  obtain ⟨a, w', hw', n, hm⟩ := h
  refine ⟨a, _, hw', n, fun fuel hfuel => ?_⟩
  show Process.zoom get set (m fuel) w = _
  unfold Process.zoom
  rw [hm fuel hfuel]

theorem succeeds (h : Ends m Q w) : ∃ n, ∀ fuel ≥ n, Succeeds (m fuel) w := by
  obtain ⟨a, w', -, n, hm⟩ := h
  exact ⟨n, fun fuel hfuel => succeeds_of_ok (hm fuel hfuel)⟩

end Ends

end Process

end Kv
end HotStuffRs
