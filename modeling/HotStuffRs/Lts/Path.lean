import Mathlib.Data.List.Induction

namespace HotStuffRs
namespace Lts

variable {S L : Type} {step : S → L → S → Prop}

/-- The states that a labelled transition system reaches from `s` along some labels. -/
inductive Path (step : S → L → S → Prop) (s : S) : List L → S → Prop
  | nil : Path step s [] s
  | snoc {ls t l u} (path : Path step s ls t) (last : step t l u) : Path step s (ls ++ [l]) u

namespace Path

theorem append {s t u : S} {ls ms : List L} (h : Path step s ls t) (h' : Path step t ms u) :
    Path step s (ls ++ ms) u := by
  induction h' with
  | nil => simpa using h
  | snoc _ last ih =>
    rw [← List.append_assoc]
    exact ih.snoc last

@[simp] theorem nil_iff {s t : S} : Path step s [] t ↔ t = s := by
  constructor
  · intro h
    generalize hls : ([] : List L) = ls at h
    cases h with
    | nil => rfl
    | snoc => simp at hls
  · rintro rfl
    exact .nil

theorem snoc_iff {s u : S} {ls : List L} {l : L} :
    Path step s (ls ++ [l]) u ↔ ∃ t, Path step s ls t ∧ step t l u := by
  constructor
  · intro h
    generalize hls : ls ++ [l] = ms at h
    cases h with
    | nil => simp at hls
    | snoc path last =>
      obtain ⟨rfl, hl⟩ := List.append_inj' hls rfl
      cases hl
      exact ⟨_, path, last⟩
  · rintro ⟨t, path, last⟩
    exact path.snoc last

theorem append_iff {s u : S} {ls ms : List L} :
    Path step s (ls ++ ms) u ↔ ∃ t, Path step s ls t ∧ Path step t ms u := by
  constructor
  · induction ms using List.reverseRecOn generalizing u with
    | nil =>
      intro h
      exact ⟨u, by simpa using h, .nil⟩
    | append_singleton ms l ih =>
      intro h
      rw [← List.append_assoc, snoc_iff] at h
      obtain ⟨t, h, last⟩ := h
      obtain ⟨m, h, h'⟩ := ih h
      exact ⟨m, h, h'.snoc last⟩
  · rintro ⟨t, h, h'⟩
    exact h.append h'

/-- A function that takes steps to steps takes runs to runs. -/
theorem map {S' : Type} {step' : S' → L → S' → Prop} (f : S → S')
    (hstep : ∀ s l t, step s l t → step' (f s) l (f t)) {s t : S} {ls : List L}
    (h : Path step s ls t) : Path step' (f s) ls (f t) := by
  induction h with
  | nil => exact .nil
  | snoc _ last ih => exact ih.snoc (hstep _ _ _ last)

/-- What the labels determine step by step they determine for the run. -/
theorem foldl_eq {T : Type} {f : T → L → T} (g : S → T)
    (hstep : ∀ s l t, step s l t → g t = f (g s) l) {s t : S} {ls : List L}
    (h : Path step s ls t) : g t = ls.foldl f (g s) := by
  induction h with
  | nil => rfl
  | snoc _ last ih => rw [hstep _ _ _ last, ih, List.foldl_append, List.foldl_cons, List.foldl_nil]

/-- What holds at the start and is kept by each step holds at the end. -/
theorem invariant {P : S → Prop} {s t : S} {ls : List L} (h : Path step s ls t) (hs : P s)
    (hstep : ∀ t l u, P t → step t l u → P u) : P t := by
  induction h with
  | nil => exact hs
  | snoc _ last ih => exact hstep _ _ _ ih last

/-- As `invariant`, for a property that also speaks of the labels so far. -/
theorem history {P : List L → S → Prop} {s t : S} {ls : List L} (h : Path step s ls t)
    (hs : P [] s)
    (hstep : ∀ ls t l u, Path step s ls t → P ls t → step t l u → P (ls ++ [l]) u) : P ls t := by
  induction h with
  | nil => exact hs
  | snoc path last ih => exact hstep _ _ _ _ path ih last

end Path

end Lts
end HotStuffRs
