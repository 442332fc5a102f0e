import HotStuffRs.BlockTree.Update

namespace HotStuffRs
namespace BlockTree

open Forest Kv

variable {appState : AppStateUpdates} {vss : ValidatorSetState}

/-- The variables that every tree has from the start on, with their first values. -/
def initialOps (vss : ValidatorSetState) : WriteBatch :=
  [.set .committedValidatorSet vss.committedValidatorSet,
   .set .previousValidatorSet vss.previousValidatorSet,
   .set .validatorSetUpdateDecided vss.updateDecided,
   .set .lockedPc .genesisPc,
   .set .highestViewEntered ViewNumber.init,
   .set .highestPc .genesisPc]

theorem mem_initialBatch {o : Op Var.Val} :
    o ∈ initialBatch appState vss ↔ o ∈ WriteBatch.applyAppStateUpdates appState ∨
      (∃ height, vss.updateHeight = some height ∧ o = .set .validatorSetUpdateBlockHeight height) ∨
      o ∈ initialOps vss := by
  simp only [initialBatch, initialOps, List.mem_append, List.mem_cons, List.not_mem_nil, or_false,
    WriteBatch.setCommittedValidatorSet, WriteBatch.setPreviousValidatorSet,
    WriteBatch.setValidatorSetUpdateDecided, WriteBatch.setLockedPc,
    WriteBatch.setHighestViewEntered, WriteBatch.setHighestPc]
  cases vss.updateHeight with
  | none => simp [or_assoc]
  | some height =>
    simp only [WriteBatch.setValidatorSetUpdateBlockHeight, List.mem_singleton,
      Option.some.injEq, exists_eq_left']
    tauto

theorem initial_of_mem_initialOps {o : Op Var.Val} (ho : o ∈ initialOps vss) :
    initial appState vss o.key = o.value := by
  refine Store.write_of_unique _ (mem_initialBatch.mpr (.inr (.inr ho))) fun o' ho' hkey => ?_
  simp only [initialOps, List.mem_cons, List.not_mem_nil, or_false] at ho
  rcases mem_initialBatch.mp ho' with ho' | ⟨height, -, rfl⟩ | ho'
  · obtain ⟨key, hk⟩ := set_of_mem_applyAppStateUpdates ho'
    rw [hk] at hkey
    rcases ho with rfl | rfl | rfl | rfl | rfl | rfl <;> cases hkey
  · rcases ho with rfl | rfl | rfl | rfl | rfl | rfl <;> cases hkey
  · simp only [initialOps, List.mem_cons, List.not_mem_nil, or_false] at ho'
    rcases ho with rfl | rfl | rfl | rfl | rfl | rfl <;>
      rcases ho' with rfl | rfl | rfl | rfl | rfl | rfl <;> first | rfl | cases hkey

theorem initial_lockedPc : initial appState vss .lockedPc = some .genesisPc :=
  initial_of_mem_initialOps (o := .set .lockedPc .genesisPc) (by simp [initialOps])

theorem initial_highestPc : initial appState vss .highestPc = some .genesisPc :=
  initial_of_mem_initialOps (o := .set .highestPc .genesisPc) (by simp [initialOps])

/-- A variable that `initialize` does not set is missing. -/
theorem initial_eq_none {v : Var} (hinitial : ∀ o ∈ initialOps vss, v ≠ o.key)
    (hheight : v ≠ .validatorSetUpdateBlockHeight) (happ : ∀ key, v ≠ .committedAppState key) :
    initial appState vss v = none := by
  refine Store.write_of_notMem _ fun o ho hk => ?_
  rcases mem_initialBatch.mp ho with ho | ⟨height, -, rfl⟩ | ho
  · obtain ⟨key, hkey⟩ := set_of_mem_applyAppStateUpdates ho
    exact happ key (hk.trans hkey)
  · exact hheight hk
  · exact hinitial o ho hk

theorem initial_highestTc : initial appState vss .highestTc = none :=
  initial_eq_none (by simp [initialOps]) (by simp) (by simp)

theorem initial_of_block? {v : Var} {b : CryptoHash} (hv : v.block? = some b) :
    initial appState vss v = none := by
  refine initial_eq_none (fun o ho => ?_) ?_ ?_
  · rintro rfl
    simp only [initialOps, List.mem_cons, List.not_mem_nil, or_false] at ho
    rcases ho with rfl | rfl | rfl | rfl | rfl | rfl <;> cases hv
  · rintro rfl
    cases hv
  · rintro key rfl
    cases hv

theorem not_stored_initial (b : CryptoHash) : ¬(initial appState vss).Stored b := by
  rw [Stored, initial_of_block? (v := .blockJustify b) rfl]
  exact Bool.false_ne_true

theorem wellFormed_initial : (initial appState vss).WellFormed := by
  have hnone : ∀ b, ∀ f : CryptoHash → Var, (f b).block? = some b →
      ((initial appState vss (f b)).isSome = true ↔ (initial appState vss).Stored b) :=
    fun b f hf => iff_of_false (by simp [initial_of_block? hf]) (not_stored_initial b)
  have hup : ∀ b p, (initial appState vss).up b ≠ some p :=
    fun b p h => not_stored_initial b (.of_up h)
  constructor
  · exact fun b => hnone b .blockHeight rfl
  · exact fun b => hnone b .blockDataHash rfl
  · exact fun b => hnone b .blockDataLen rfl
  · intro b len hlen
    rw [initial_of_block? rfl] at hlen
    cases hlen
  · exact not_stored_initial 0
  · intro b j hj
    rw [initial_of_block? rfl] at hj
    cases hj
  · exact ⟨fun b => ⟨b, fun p hp => (hup b p hp).elim⟩⟩
  · intro p c
    rw [childrenOf, initial_of_block? (v := .blockToChildren p) rfl]
    simpa using hup c p

end BlockTree
end HotStuffRs
