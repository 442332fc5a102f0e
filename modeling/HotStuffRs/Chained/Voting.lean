import HotStuffRs.Forest.Basic

/-
The three-chain rule of chained voting.

Blocks are proposed in numbered views.  Each block carries a certificate of another block, its
parent, and to vote for a block is to vote for its ancestors, too.  A block is final once
certificates of three views in a row carry each other on top of it.

This is safe if two certificates always share a voter who votes once in a view and keeps to its
lock, that is to the certificate two links below the blocks that it voted for.
-/

namespace HotStuffRs
namespace Chained

open Forest

/-- Certificates `C` of blocks `B`. -/
structure Certificates (B C : Type) where
  view : C → Nat
  block : C → B
  /-- Those that enough voters signed. -/
  Valid : C → Prop
  /-- The certificate that a block carries. -/
  justify : B → Option C

namespace Certificates

variable {B C : Type} (K : Certificates B C)

/-- The parent of a block. -/
def up (b : B) : Option B := (K.justify b).map K.block

variable {K} in
theorem up_eq_some {b p : B} : K.up b = some p ↔ ∃ j, K.justify b = some j ∧ K.block j = p := by
  simp [up]

/-- The parent of `c` extends the block of `k`, or one that was certified later. -/
def KeepsTo (k : C) (c : B) : Prop :=
  ∃ p, K.up c = some p ∧ (Extends K.up p (K.block k) ∨
    ∃ q, K.Valid q ∧ K.view k < K.view q ∧ Extends K.up p (K.block q))

/-- A vote for `c` keeps to the lock that comes with a vote for `b`. -/
def Binds (b c : B) : Prop :=
  ∀ j k, K.justify b = some j → K.justify (K.block j) = some k → K.KeepsTo k c

/-- The certificate `q` and the two on top of it are of three views in a row. -/
structure ThreeChain (q q' q'' : C) : Prop where
  valid : K.Valid q
  valid' : K.Valid q'
  valid'' : K.Valid q''
  carried : K.justify (K.block q') = some q
  carried' : K.justify (K.block q'') = some q'
  view : K.view q' = K.view q + 1
  view' : K.view q'' = K.view q' + 1

def Final (b : B) : Prop := ∃ q q' q'', K.ThreeChain q q' q'' ∧ K.block q = b

end Certificates

/-- What is asked of the voters. -/
structure Rules {B C V : Type} (K : Certificates B C) (Votes : V → Nat → B → Prop) : Prop where
  acyclic : Acyclic K.up
  common : ∀ q q', K.Valid q → K.Valid q' →
    ∃ v, Votes v (K.view q) (K.block q) ∧ Votes v (K.view q') (K.block q')
  once : ∀ v view b b', Votes v view b → Votes v view b' → b = b'
  locked : ∀ v view view' b b', Votes v view b → Votes v view' b' → view < view' → K.Binds b b'

namespace Rules

variable {B C V : Type} {K : Certificates B C} {Votes : V → Nat → B → Prop}

/-- Two certificates of one view are of one block. -/
theorem block_eq (h : Rules K Votes) {q q' : C} (hq : K.Valid q) (hq' : K.Valid q')
    (hview : K.view q = K.view q') : K.block q = K.block q' := by
  obtain ⟨v, hv, hv'⟩ := h.common q q' hq hq'
  exact h.once v _ _ _ hv (hview ▸ hv')

/-- Whatever is certified from the first of the three views on extends its block. -/
theorem extends_of_threeChain (h : Rules K Votes) {q q' q'' : C} (hq : K.ThreeChain q q' q'')
    (b : B) : ∀ e, K.Valid e → K.block e = b → K.view q ≤ K.view e → Extends K.up b (K.block q) := by
  induction b using Acyclic.induction_ancestors h.acyclic with
  | _ b ih =>
    rintro e he rfl hle
    have hup : K.up (K.block q') = some (K.block q) :=
      Certificates.up_eq_some.mpr ⟨q, hq.carried, rfl⟩
    have hup' : K.up (K.block q'') = some (K.block q') :=
      Certificates.up_eq_some.mpr ⟨q', hq.carried', rfl⟩
    have hview := hq.view
    have hview' := hq.view'
    rcases Nat.lt_or_ge (K.view q'') (K.view e) with hlt | hge
    · -- A voter for both `q''` and `e` was locked on `q` when it voted for the block of `e`.
      obtain ⟨v, hv, hv'⟩ := h.common q'' e hq.valid'' he
      obtain ⟨p, hp, hext | ⟨e', he', hlt', hext⟩⟩ :=
        h.locked v _ _ _ _ hv hv' hlt q' q hq.carried' hq.carried
      · exact .of_parent hp hext
      · exact .of_parent hp (hext.trans (ih p _ hp hext e' he' rfl hlt'.le))
    · -- In the three views there are no other certificates.
      have hcases : K.view q = K.view e ∨ K.view q' = K.view e ∨ K.view q'' = K.view e := by omega
      rcases hcases with heq | heq | heq
      · rw [← h.block_eq hq.valid he heq]
        exact .refl _
      · rw [← h.block_eq hq.valid' he heq]
        exact .parent hup
      · rw [← h.block_eq hq.valid'' he heq]
        exact .of_parent hup' (.parent hup)

/-- Final blocks are in line. -/
theorem final_total (h : Rules K Votes) {b b' : B} (hb : K.Final b) (hb' : K.Final b') :
    Extends K.up b b' ∨ Extends K.up b' b := by
  obtain ⟨q, q', q'', hq, rfl⟩ := hb
  obtain ⟨r, r', r'', hr, rfl⟩ := hb'
  rcases Nat.le_total (K.view q) (K.view r) with hle | hle
  · exact .inr (h.extends_of_threeChain hq _ r hr.valid rfl hle)
  · exact .inl (h.extends_of_threeChain hr _ q hq.valid rfl hle)

end Rules

end Chained
end HotStuffRs
