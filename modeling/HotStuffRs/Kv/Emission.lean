import HotStuffRs.Kv.Process

/-
What a process does, effect by effect.

`Emitted Q` says of a world that `Q` allows each of its effects, given the store that the effect
finds and the effect right before it.  A handler is gone through once to see that it emits such
effects only; what `Q` says then holds at every point of every run.
-/

namespace HotStuffRs
namespace Kv

variable {A M N ε α : Type} {K : Type} {V : K → Type} [DecidableEq K]
variable {Q : Store V → Option (Effect A V) → Effect A V → Prop}

namespace World

variable {w : World M A V}

def Emitted (Q : Store V → Option (Effect A V) → Effect A V → Prop) (w : World M A V) : Prop :=
  ∀ before e, before ++ [e] <+: w.effects → Q (w.base.replay before) before.getLast? e

/-- The memory is as `I` says, and `Q` allows the effects so far. -/
def Emitting (I : M → Prop) (Q : Store V → Option (Effect A V) → Effect A V → Prop)
    (w : World M A V) : Prop :=
  I w.mem ∧ w.Emitted Q

theorem Emitted.of_nil (h : w.effects = []) : w.Emitted Q := by
  intro before e hbefore
  rw [h] at hbefore
  have hnil := List.prefix_nil.mp hbefore
  simp at hnil

theorem Emitted.congr (h : w.Emitted Q) {w' : World N A V} (hbase : w'.base = w.base)
    (heffects : w'.effects = w.effects) : w'.Emitted Q := by
  intro before e hbefore
  rw [hbase]
  exact h before e (heffects ▸ hbefore)

theorem Emitted.setMem (h : w.Emitted Q) (m : M) : (w.setMem m).Emitted Q := h.congr rfl rfl

theorem Emitted.emit (h : w.Emitted Q) {e : Effect A V} (he : Q w.tree w.effects.getLast? e) :
    (w.emit e).Emitted Q := by
  intro before e' hbefore
  rcases List.prefix_concat_iff.mp hbefore with heq | hbefore
  · obtain ⟨rfl, hlast⟩ := List.append_inj' heq rfl
    obtain rfl := (List.cons.inj hlast).1
    exact he
  · exact h before e' hbefore

variable {I : M → Prop}

theorem Emitting.emitted (h : w.Emitting I Q) : w.Emitted Q := h.2

theorem Emitting.emit (h : w.Emitting I Q) {e : Effect A V} (he : Q w.tree w.effects.getLast? e) :
    (w.emit e).Emitting I Q :=
  ⟨h.1, h.2.emit he⟩

theorem Emitting.setMem (h : w.Emitting I Q) {m : M} (hm : I m) : (w.setMem m).Emitting I Q :=
  ⟨hm, h.2.setMem m⟩

end World

namespace Process

open World

variable {I : M → Prop}

/-- `m` only emits what `Q` allows, and keeps the memory as `I` says. -/
abbrev EmitsOnly (I : M → Prop) (Q : Store V → Option (Effect A V) → Effect A V → Prop)
    (m : Process ε M A V α) : Prop :=
  Keeps (Emitting I Q) (Emitted Q) m

theorem emitsOnly_lift (x : Except ε α) : EmitsOnly I Q (lift x) := .lift (fun _ h => h.2) x

theorem emitsOnly_throw (e : ε) : EmitsOnly I Q (throw e : Process ε M A V α) :=
  .throw (fun _ h => h.2) e

/-- What emits only effects that are allowed on a part of the memory does so on the whole. -/
theorem emitsOnly_zoom {get : M → N} {set : N → M → M} {J : N → Prop} {m : Process ε N A V α}
    (hm : EmitsOnly J Q m) (hget : ∀ x, I x → J (get x)) (hset : ∀ n x, J n → I x → I (set n x)) :
    EmitsOnly I Q (zoom get set m) := by
  intro w h
  rw [wp_zoom]
  have hpart : Emitting J Q { mem := get w.mem, base := w.base, effects := w.effects } :=
    ⟨hget _ h.1, h.2.congr rfl rfl⟩
  refine wp_mono (hm _ hpart) (fun _ w' hw' => ?_) fun w' hw' => hw'.congr rfl rfl
  exact ⟨hset _ _ hw'.1 h.1, hw'.2.congr rfl rfl⟩

end Process

end Kv
end HotStuffRs
