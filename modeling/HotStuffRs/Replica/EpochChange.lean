import HotStuffRs.Replica.Fallback
import HotStuffRs.Replica.Votes

/-
What makes a replica leave an epoch-change view.

A tick never does.  A message does with a certificate for the view or a later one, and a restart
either with such a certificate or because the view is the highest one entered.
-/

namespace HotStuffRs

open Kv Kv.Process Lts

/-! ## Views that the pacemaker leaves -/

namespace Pacemaker

variable {cr : Crypto} {now : Instant} {w : World Pacemaker Action Var.Val}
  {vss : ValidatorSetState}

end Pacemaker

/-! ## Views of a run -/

variable {cr : Crypto} {config : Configuration} {apps : App → Prop} {s₀ : BlockTree}
  {log : List Event} {fuel : Nat} {input : Input} {r : Replica}

/-- The signatures of a certificate are correct and hold a quorum of a validator set of the
replica: the committed or the previous one, at the end of `log` or before, or for a phase
certificate the committed one with the updates that its block had pending. -/
def ProgressCertificate.Signed (cr : Crypto) (s₀ : BlockTree) (log : List Event) :
    ProgressCertificate → Prop
  | .phaseCertificate pc => ∃ vs, HeldFor s₀ log pc.block vs ∧ pc.isCorrectlySigned cr vs = .ok true
  | .timeoutCertificate tc => tc.Authentic cr s₀ log

theorem ProgressCertificate.Signed.mono {s₀ : BlockTree} {log' : List Event}
    {certificate : ProgressCertificate} (h : certificate.Signed cr s₀ log) (hlog : log <+: log') :
    certificate.Signed cr s₀ log' := by
  cases certificate with
  | phaseCertificate pc =>
    obtain ⟨vs, hheld, hsigned⟩ := h
    exact ⟨vs, HeldFor.mono hheld hlog, hsigned⟩
  | timeoutCertificate tc =>
    obtain ⟨vs, hheld, hsigned⟩ := h
    exact ⟨vs, hheld.mono hlog, hsigned⟩

namespace Protocol

end Protocol

open Protocol

/-- A certificate that passes its check in the current tree. -/
def ProgressCertificate.Correct (cr : Crypto) (tree : BlockTree) : ProgressCertificate → Prop
  | .phaseCertificate pc => pc.isCorrect cr tree = .ok true
  | .timeoutCertificate tc => tc.isCorrect cr tree = .ok true

/-- The Genesis PC is correct, but nobody signed it. -/
theorem ProgressCertificate.Correct.signed {certificate : ProgressCertificate}
    (h : certificate.Correct cr (s₀.replay log)) :
    certificate = .phaseCertificate .genesisPc ∨ certificate.Signed cr s₀ log := by
  cases certificate with
  | phaseCertificate pc =>
    rcases authentic_of_isCorrect h with rfl | hsigned
    · exact .inl rfl
    · exact .inr hsigned
  | timeoutCertificate tc => exact .inr (authentic_of_isCorrect_tc h)

namespace Sample

/-- Every view is an epoch-change view. -/
def shortEpochs : Configuration := { configuration 1 with epochLength := 1 }

/-- Nothing is received. -/
def quiet : Input := { advance (.timeoutCertificate timeout) with message := none }

/-- A replica that has left view 0 with the timeout certificate for it, and entered view 1. -/
def entered : Option (List Event × Replica) :=
  match Replica.start shortEpochs tree 0 with
  | .ok r => r.iterateAll crypto 10 [advance (.timeoutCertificate timeout), quiet]
  | .error _ => none

end Sample

end HotStuffRs
