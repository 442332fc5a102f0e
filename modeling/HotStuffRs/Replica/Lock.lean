import HotStuffRs.Replica.Tree

/-
How the lock moves.

A replica locks on the justify of the certified block in the pipelined mode, and on the
certificate itself in the phased mode.  `safe_pc` lets certificates through that are no
newer than the lock when they are about a block close to the locked one, so what the
replica locks on next may be older than what it is locked on.
-/

namespace HotStuffRs

open Kv Lts

variable {cr : Crypto} {config : Configuration} {apps : App → Prop}

namespace BlockTree

/-- From `s` to `s'` the view of the lock does not decrease. -/
def LockKept (s s' : BlockTree) : Prop :=
  ∃ locked locked', s .lockedPc = some locked ∧ s' .lockedPc = some locked' ∧
    locked.view ≤ locked'.view

/-- The certificate that acting upon `justify` would lock on is not older than the lock:
the justify of the certified block in the pipelined mode, `justify` in the phased mode,
where a `Commit` or `Decide` certificate about the locked block does not count. -/
def KeepsLock (s : BlockTree) (justify : PhaseCertificate) : Prop :=
  justify = .genesisPc ∨ ∀ locked ∈ s .lockedPc,
    match justify.phase with
    | .generic => ∀ parentJustify ∈ s (.blockJustify justify.block),
      locked.view ≤ parentJustify.view
    | .prepare => True
    | .precommit => locked.view ≤ justify.view
    | .commit | .decide => locked.block = justify.block ∨ locked.view ≤ justify.view

variable {s s' : BlockTree} {justify : PhaseCertificate}

theorem LockKept.trans {t : BlockTree} (h : LockKept s s') (h' : LockKept s' t) : LockKept s t := by
  obtain ⟨locked, locked', hs, hs', hle⟩ := h
  obtain ⟨locked'', lockedt, hs'', ht, hle'⟩ := h'
  obtain rfl := Option.some.inj (hs'.symm.trans hs'')
  exact ⟨locked, lockedt, hs, ht, hle.trans hle'⟩

theorem NextLock.view_le_iff {locked locked' : PhaseCertificate} (hlocked : s .lockedPc = some locked)
    (h : NextLock s justify locked locked') :
    locked.view ≤ locked'.view ↔ s.KeepsLock justify := by
  have hne : ∀ {phase : Phase}, justify.phase = phase → phase ≠ .generic → justify ≠ .genesisPc := by
    rintro _ rfl hphase rfl
    exact hphase rfl
  cases h with
  | genesis hj => exact iff_of_true le_rfl (.inl hj)
  | generic hj hphase hparent => simp [KeepsLock, hj, hlocked, hphase, hparent]
  | prepare hphase => exact iff_of_true le_rfl (.inr fun _ _ => by simp [hphase])
  | precommit hphase => simp [KeepsLock, hne hphase (by decide), hlocked, hphase]
  | same hphase hblock =>
    refine iff_of_true le_rfl (.inr fun locked' hlocked' => ?_)
    obtain rfl := Option.some.inj (hlocked.symm.trans hlocked')
    rcases hphase with hphase | hphase <;> simp [hphase, hblock]
  | other hphase hblock =>
    rcases hphase with hphase | hphase <;>
      simp [KeepsLock, hne hphase (by decide), hlocked, hphase, hblock]

/-- Acting upon a certificate keeps the lock from moving backwards exactly if the
certificate it locks on is not older. -/
theorem lockKept_update_iff {fuel : Nat} {wb : WriteBatch} {updates : Option ValidatorSetUpdates}
    (hlocked : (s .lockedPc).isSome = true) (h : s.updateBatch fuel justify = .ok (wb, updates)) :
    LockKept s (s.write wb) ↔ s.KeepsLock justify := by
  obtain ⟨locked, hlocked⟩ := Option.isSome_iff_exists.mp hlocked
  obtain ⟨locked', hlocked', hnext⟩ := lockedPc_update hlocked h
  rw [← hnext.view_le_iff hlocked, LockKept]
  simp [hlocked, hlocked']

end BlockTree

namespace Protocol

open BlockTree

/-- In the history `log` the replica acts upon `justify` when its tree is `s`. -/
def ActsUpon (s₀ : BlockTree) (log : List Event) (s : BlockTree) (justify : PhaseCertificate) :
    Prop :=
  ∃ log' fuel wb updates, log' ++ [.effect (.write wb)] <+: log ∧ s = s₀.replay log' ∧
    s.updateBatch fuel justify = .ok (wb, updates)

theorem ActsUpon.mono {s₀ s : BlockTree} {log log' : List Event} {justify : PhaseCertificate}
    (h : ActsUpon s₀ log s justify) (hlog : log <+: log') : ActsUpon s₀ log' s justify := by
  obtain ⟨before, fuel, wb, updates, hbefore, hs, hupdate⟩ := h
  exact ⟨before, fuel, wb, updates, hbefore.trans hlog, hs, hupdate⟩

theorem TreeStep.lockKept {s s' : BlockTree} {e : Event} (h : TreeStep cr config apps s e s')
    (hlocked : (s .lockedPc).isSome = true) :
    (s' .lockedPc).isSome = true ∧
      (LockKept s s' ∨ ∃ justify fuel wb updates, e = .effect (.write wb) ∧ s' = s.write wb ∧
        s.updateBatch fuel justify = .ok (wb, updates)) := by
  obtain ⟨locked, hs⟩ := Option.isSome_iff_exists.mp hlocked
  have hsame : ∀ t : BlockTree, t .lockedPc = s .lockedPc →
      (t .lockedPc).isSome = true ∧ LockKept s t :=
    fun t ht => ⟨ht ▸ hlocked, locked, locked, hs, ht.trans hs, le_rfl⟩
  cases h with
  | act => exact (hsame s rfl).imp_right .inl
  | crash => exact (hsame s rfl).imp_right .inl
  | insert => exact (hsame _ (insert_of_block?_eq_none rfl (by decide))).imp_right .inl
  | @update justify fuel wb updates hupdate =>
    obtain ⟨locked', hlocked', -⟩ := lockedPc_update hs hupdate
    exact ⟨by rw [hlocked']; rfl, .inr ⟨justify, fuel, wb, updates, rfl, rfl, hupdate⟩⟩
  | @note v x hv =>
    exact (hsame _ (write_note hv (by simp [IsNote]))).imp_right .inl

/-- A run whose every certificate keeps the lock ends with a lock that is not older. -/
theorem path_lockKept {s t : BlockTree} {log : List Event}
    (path : Path (TreeStep cr config apps) s log t) (hlocked : (s .lockedPc).isSome = true)
    (hkeeps : ∀ log' justify fuel wb updates, log' ++ [.effect (.write wb)] <+: log →
      (s.replay log').updateBatch fuel justify = .ok (wb, updates) →
      (s.replay log').KeepsLock justify) :
    (t .lockedPc).isSome = true ∧ LockKept s t := by
  induction path with
  | nil =>
    obtain ⟨locked, hs⟩ := Option.isSome_iff_exists.mp hlocked
    exact ⟨hlocked, locked, locked, hs, hs, le_rfl⟩
  | @snoc log t e u path last ih =>
    obtain ⟨ht, hkept⟩ := ih fun log' justify fuel wb updates hlog =>
      hkeeps log' justify fuel wb updates (hlog.trans (List.prefix_append ..))
    obtain ⟨hu, hlast⟩ := last.lockKept ht
    refine ⟨hu, hkept.trans (hlast.elim id ?_)⟩
    rintro ⟨justify, fuel, wb, updates, rfl, rfl, hupdate⟩
    obtain rfl : t = s.replay log := treePath_tree path
    exact (lockKept_update_iff ht hupdate).mpr
      (hkeeps log justify fuel wb updates List.prefix_rfl hupdate)

theorem path_lockedPc {s t : BlockTree} {log : List Event}
    (path : Path (TreeStep cr config apps) s log t) (hlocked : (s .lockedPc).isSome = true) :
    (t .lockedPc).isSome = true :=
  path.invariant hlocked fun _ _ _ h last => (last.lockKept h).1

/-- Acting upon a certificate moves the lock of a reachable tree backwards exactly if the
certificate to lock on is older than the lock, and a run never moves it backwards exactly
if this is so for none of its certificates. -/
theorem lock_kept_iff {appState : AppStateUpdates} {vss : ValidatorSetState} {log : List Event}
    (h : History cr config apps (initial appState vss) log) :
    (∀ justify fuel s' updates,
      ((initial appState vss).replay log).update fuel justify = .ok (s', updates) →
      (LockKept ((initial appState vss).replay log) s' ↔
        ((initial appState vss).replay log).KeepsLock justify)) ∧
    ((∀ log₁ log₂, log₁ ++ log₂ <+: log →
        LockKept ((initial appState vss).replay log₁)
          ((initial appState vss).replay (log₁ ++ log₂))) ↔
      ∀ s justify, ActsUpon (initial appState vss) log s justify → s.KeepsLock justify) := by
  have hpath : ∀ log', log' <+: log → Path (TreeStep cr config apps) (initial appState vss) log'
      ((initial appState vss).replay log') := fun log' => treePath_of_prefix h
  have hlocked : ∀ log', log' <+: log →
      ((initial appState vss).replay log' .lockedPc).isSome = true := fun log' hlog' =>
    path_lockedPc (hpath log' hlog') (by rw [initial_lockedPc]; rfl)
  refine ⟨fun justify fuel s' updates hupdate => ?_, fun hkept s justify hacts => ?_,
    fun hkeeps log₁ log₂ hlog => ?_⟩
  · simp only [update, Result.bind_eq_ok, Result.pure_eq, Except.ok.injEq, Prod.mk.injEq] at hupdate
    obtain ⟨⟨wb, updates'⟩, hbatch, rfl, -⟩ := hupdate
    exact lockKept_update_iff (hlocked log List.prefix_rfl) hbatch
  · obtain ⟨log', fuel, wb, updates, hlog, rfl, hupdate⟩ := hacts
    have hstep := hkept log' [.effect (.write wb)] hlog
    rw [replay_snoc, perform_write] at hstep
    exact (lockKept_update_iff (hlocked log' ((List.prefix_append ..).trans hlog)) hupdate).mp hstep
  · obtain ⟨t, path₁, path₂⟩ := Path.append_iff.mp (hpath _ hlog)
    obtain rfl := treePath_tree path₁
    refine (path_lockKept path₂ (hlocked log₁ ((List.prefix_append ..).trans hlog))
      fun log' justify fuel wb updates hlog' hupdate => ?_).2
    rw [← replay_append] at hupdate ⊢
    refine hkeeps _ justify ⟨log₁ ++ log', fuel, wb, updates, ?_, rfl, hupdate⟩
    rw [List.append_assoc]
    exact ((List.prefix_append_right_inj log₁).mpr hlog').trans hlog

/-- After three views a replica is locked on the certificate for the first block, and
acting upon that certificate once more takes the lock back to its justify. -/
def locksBack (s : BlockTree) : Bool :=
  let justify := Sample.certify 1 Sample.block₀.hash .generic
  justify.isCorrect Sample.crypto s == .ok true && s.safePc justify 7 == .ok true &&
  match s.update 20 justify with
  | .ok (s', _) => s .lockedPc == some justify && s' .lockedPc == some .genesisPc
  | .error _ => false

set_option maxRecDepth 100000 in
theorem reaches_locksBack : Replica.reaches Sample.crypto (Sample.configuration 3) Sample.tree 20
    Sample.firstThreeViews locksBack = true := by
  decide +kernel

theorem exists_locksBack : ∃ log justify s' updates,
    History Sample.crypto (Sample.configuration 3) (· = Sample.app) Sample.tree log ∧
    justify.isCorrect Sample.crypto (Sample.tree.replay log) = .ok true ∧
    (Sample.tree.replay log).safePc justify 7 = .ok true ∧
    (Sample.tree.replay log).update 20 justify = .ok (s', updates) ∧
    ¬LockKept (Sample.tree.replay log) s' := by
  obtain ⟨log, hlog, hback⟩ :=
    @exists_history_of_reaches _ _ (· = Sample.app) _ _ _ _ _ rfl Sample.app_firstThreeViews
      reaches_locksBack
  simp only [locksBack, Bool.and_eq_true, beq_iff_eq] at hback
  obtain ⟨⟨hcorrect, hsafe⟩, hback⟩ := hback
  split at hback
  · rename_i s' updates hupdate
    simp only [Bool.and_eq_true, beq_iff_eq] at hback
    refine ⟨log, _, s', updates, hlog, hcorrect, hsafe, hupdate, ?_⟩
    rintro ⟨locked, locked', hlocked, hlocked', hle⟩
    obtain rfl := Option.some.inj (hback.1.symm.trans hlocked)
    obtain rfl := Option.some.inj (hback.2.symm.trans hlocked')
    exact absurd hle (by decide)
  · cases hback

theorem lock_moves_back : ¬∀ (cr : Crypto) (config : Configuration) (apps : App → Prop)
    (appState : AppStateUpdates) (vss : ValidatorSetState) (log : List Event)
    (justify : PhaseCertificate) (fuel : Nat) (s' : BlockTree)
    (updates : Option ValidatorSetUpdates), History cr config apps (initial appState vss) log →
    justify.isCorrect cr ((initial appState vss).replay log) = .ok true →
    ((initial appState vss).replay log).safePc justify config.chainId = .ok true →
    ((initial appState vss).replay log).update fuel justify = .ok (s', updates) →
    LockKept ((initial appState vss).replay log) s' := by
  intro h
  obtain ⟨log, justify, s', updates, hlog, hcorrect, hsafe, hupdate, hnot⟩ := exists_locksBack
  exact hnot (h _ _ _ _ _ log justify 20 s' updates hlog hcorrect hsafe hupdate)

theorem lock_kept_iff_after_three_views : ∃ log justify,
    History Sample.crypto (Sample.configuration 3) (· = Sample.app) Sample.tree log ∧
    justify.isCorrect Sample.crypto (Sample.tree.replay log) = .ok true ∧
    ¬(Sample.tree.replay log).KeepsLock justify := by
  obtain ⟨log, justify, s', updates, hlog, hcorrect, -, hupdate, hnot⟩ := exists_locksBack
  exact ⟨log, justify, hlog, hcorrect, fun hkeeps =>
    hnot (((lock_kept_iff hlog).1 justify 20 s' updates hupdate).mpr hkeeps)⟩

end Protocol
end HotStuffRs
