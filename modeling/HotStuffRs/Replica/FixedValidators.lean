import HotStuffRs.BlockTree.Heights
import HotStuffRs.Replica.Authentic
import HotStuffRs.Replica.Votes

/-
Networks whose validators never change.

As long as no app updates the validator set, no tree has an update pending, decided or under way.
Then a certificate is correct if the committed validators signed it, a safe certificate is in
the pipelined mode, and no nudge is safe.
-/

namespace HotStuffRs

open Kv

/-- No app ever asks for another validator set. -/
def FixedValidators (apps : App → Prop) : Prop :=
  ∀ app, apps app → ∀ block appStateUpdates validatorSetUpdates,
    app.Validates block appStateUpdates validatorSetUpdates → validatorSetUpdates = none

namespace BlockTree

/-- The validators of `s` are `vs`, and no update of them is known. -/
structure Fixed (vs : ValidatorSet) (s : BlockTree) : Prop where
  committed : s .committedValidatorSet = some vs
  updateHeight : s .validatorSetUpdateBlockHeight = none
  status : ∀ b, s (.validatorSetUpdatesStatus b) = none

variable {s s' : BlockTree} {vs : ValidatorSet}

/-- Without pending updates, acting upon a certificate leaves the committed validators. -/
theorem write_update_of_status (wf : s.WellFormed) (hstatus : ∀ b, s (.validatorSetUpdatesStatus b) = none)
    {justify : PhaseCertificate} {fuel : Nat} {wb : WriteBatch}
    {updates : Option ValidatorSetUpdates} (h : s.updateBatch fuel justify = .ok (wb, updates))
    {v : Var} (hv : v = .committedValidatorSet ∨ v = .validatorSetUpdateBlockHeight) :
    s.write wb v = s v := by
  obtain ⟨us, commitBatch, hcommits, hwrite, -⟩ := commitsFor_of_updateBatch wf h
  rw [hwrite v (by rcases hv with rfl | rfl <;> rfl) (by rcases hv with rfl | rfl <;> simp)]
  rcases hcommits with ⟨target, -, hcommits⟩ | ⟨-, -, rfl⟩
  · refine Store.write_of_notMem s fun o ho hkey => ?_
    obtain ⟨b, -, ho⟩ := (hcommits.mem o).mp ho
    cases ho with
    | prune _ ho =>
      have hblock := (delete_of_mem_deleteBranchBlock ho).2
      rw [← hkey] at hblock
      rcases hv with rfl | rfl <;> cases hblock
    | appState _ ho =>
      obtain ⟨key, hk⟩ := set_of_mem_applyAppStateUpdates ho
      rw [hk] at hkey
      rcases hv with rfl | rfl <;> cases hkey
    | validatorSet hb => cases (hstatus b).symm.trans hb
    | blockAtHeight | children | deletePending | highestCommittedBlock =>
      rcases hv with rfl | rfl <;> cases hkey
  · rfl

theorem status_update (wf : s.WellFormed) (hstatus : ∀ b, s (.validatorSetUpdatesStatus b) = none)
    {justify : PhaseCertificate} {fuel : Nat} {wb : WriteBatch}
    {updates : Option ValidatorSetUpdates} (h : s.updateBatch fuel justify = .ok (wb, updates))
    (b : CryptoHash) : s.write wb (.validatorSetUpdatesStatus b) = none := by
  obtain ⟨us, commitBatch, hcommits, hwrite, -⟩ := commitsFor_of_updateBatch wf h
  rw [hwrite _ rfl (by simp)]
  rcases hcommits with ⟨target, -, hcommits⟩ | ⟨-, -, rfl⟩
  · cases hb : s.write commitBatch (.validatorSetUpdatesStatus b) with
    | none => rfl
    | some status =>
      rcases Store.cases_of_write s hb with hset | ⟨-, hb⟩
      · obtain ⟨c, -, ho⟩ := (hcommits.mem _).mp hset
        cases ho with
        | prune _ ho => cases (delete_of_mem_deleteBranchBlock ho).1
        | appState _ ho =>
          obtain ⟨key, hk⟩ := set_of_mem_applyAppStateUpdates ho
          cases hk
        | validatorSet hc => cases (hstatus c).symm.trans hc
      · cases (hstatus b).symm.trans hb
  · exact hstatus b

namespace Fixed

theorem initial {appState : AppStateUpdates} {vss : ValidatorSetState}
    (hheight : vss.updateHeight = none) :
    Fixed vss.committedValidatorSet (BlockTree.initial appState vss) where
  committed := initial_of_mem_initialOps
    (o := .set .committedValidatorSet vss.committedValidatorSet) (by simp [initialOps])
  updateHeight := by
    refine Store.write_of_notMem _ fun o ho hkey => ?_
    rcases mem_initialBatch.mp ho with ho | ⟨height, hsome, -⟩ | ho
    · obtain ⟨key, hk⟩ := set_of_mem_applyAppStateUpdates ho
      cases hkey.trans hk
    · cases hheight.symm.trans hsome
    · simp only [initialOps, List.mem_cons, List.not_mem_nil, or_false] at ho
      rcases ho with rfl | rfl | rfl | rfl | rfl | rfl <;> cases hkey
  status b := initial_of_block? rfl

variable (h : Fixed vs s)
include h

theorem congr (hkept : ∀ v : Var, v = .committedValidatorSet ∨ v = .validatorSetUpdateBlockHeight ∨
    (∃ b, v = .validatorSetUpdatesStatus b) → s' v = s v) : Fixed vs s' where
  committed := (hkept _ (.inl rfl)).trans h.committed
  updateHeight := (hkept _ (.inr (.inl rfl))).trans h.updateHeight
  status b := (hkept _ (.inr (.inr ⟨b, rfl⟩))).trans (h.status b)

theorem insert {block : Block} {appStateUpdates : Option AppStateUpdates} :
    Fixed vs (s.insert block appStateUpdates none) := by
  refine h.congr fun v hv => Store.write_of_notMem s fun o ho hkey => ?_
  cases mem_insertBatch.mp ho with
  | block ho =>
    have hfield := (key_of_mem_setBlock ho).1
    rw [← hkey] at hfield
    rcases hv with rfl | rfl | ⟨b, rfl⟩ <;> cases hfield
  | validatorSet hsome => cases hsome
  | newestBlock | appState | children => rcases hv with rfl | rfl | ⟨b, rfl⟩ <;> cases hkey

theorem update (wf : s.WellFormed) {justify : PhaseCertificate} {fuel : Nat} {wb : WriteBatch}
    {updates : Option ValidatorSetUpdates}
    (hupdate : s.updateBatch fuel justify = .ok (wb, updates)) : Fixed vs (s.write wb) where
  committed := (write_update_of_status wf h.status hupdate (.inl rfl)).trans h.committed
  updateHeight := (write_update_of_status wf h.status hupdate (.inr rfl)).trans h.updateHeight
  status := status_update wf h.status hupdate

theorem note {v : Var} {x : v.Val} (hv : Protocol.IsNote v) : Fixed vs (s.write [.set v x]) := by
  refine h.congr fun v' hv' => Protocol.write_note hv ?_
  rcases hv' with rfl | rfl | ⟨b, rfl⟩ <;> simp [Protocol.IsNote]

/-- There is one validator set to look at. -/
theorem signed_of_isCorrect {cr : Crypto} {pc : PhaseCertificate}
    (hcorrect : pc.isCorrect cr s = .ok true) :
    pc = .genesisPc ∨ pc.isCorrectlySigned cr vs = .ok true := by
  by_cases hgenesis : pc = .genesisPc
  · exact .inl hgenesis
  have hnot : pc.isGenesisPc = false := by simpa [PhaseCertificate.isGenesisPc] using hgenesis
  simp only [PhaseCertificate.isCorrect, hnot, Bool.false_eq_true, if_false, Result.bind_eq_ok,
    PhaseCertificate.signingSet, kv_blockHeight, Result.ok_bind] at hcorrect
  obtain ⟨signers, ⟨vss, hvss, hsigners⟩, hcorrect⟩ := hcorrect
  obtain ⟨hcommitted, -, hheight, -⟩ := kv_validatorSetState_eq_ok.mp hvss
  obtain rfl : vs = vss.committedValidatorSet := Option.some.inj (h.committed.symm.trans hcommitted)
  have hnone : vss.updateHeight = none := hheight.symm.trans h.updateHeight
  have hset : signers = some vss.committedValidatorSet := by
    rw [hnone] at hsigners
    split at hsigners <;> first | exact (Except.ok.inj hsigners).symm | contradiction
  subst hset
  exact .inr hcorrect

theorem phase_of_safePc {pc : PhaseCertificate} {chainId : ChainID}
    (hsafe : s.safePc pc chainId = .ok true) : pc.phase = .generic := by
  obtain ⟨-, -, hphase⟩ := safePc_cases hsafe
  rw [h.status] at hphase
  by_contra hne
  exact Bool.false_ne_true (hphase.mp hne)

/-- Nudges are for blocks that update the validator set. -/
theorem not_safeNudge {nudge : Nudge} {view : ViewNumber} {chainId : ChainID} {phase : Phase}
    (hphase : HotStuff.nudgedPhase nudge.justify.phase = .ok phase) :
    s.safeNudge nudge view chainId ≠ .ok true := by
  intro hsafe
  rw [h.phase_of_safePc (safePc_of_safeNudge hsafe)] at hphase
  cases hphase

end Fixed

end BlockTree
end HotStuffRs
