import HotStuffRs.Pacemaker.Implementation
import HotStuffRs.BlockTree.Getters

/-
The deadlines of the pacemaker.

Whatever view a pacemaker is in, it has a deadline for each view from there to the end of the
epoch.
-/

namespace HotStuffRs

open Kv Kv.Process

/-- The view that ends the epoch of `view`. -/
def epochEnd (epochLength : U32) (view : ViewNumber) : Nat :=
  (view.val + epochLength.val - 1) / epochLength.val * epochLength.val

theorem epoch_eq_ok {epochLength : U32} {view : ViewNumber} {n : Nat} :
    epoch view epochLength = .ok n ↔
      epochLength.val ≠ 0 ∧ (view.val + epochLength.val - 1) / epochLength.val = n := by
  unfold epoch
  split
  · simp [*]
  · simp [*]

theorem le_epochEnd {epochLength : U32} (hlength : epochLength.val ≠ 0) (view : ViewNumber) :
    view.val ≤ epochEnd epochLength view := by
  unfold epochEnd
  have hpos : 0 < epochLength.val := Nat.pos_of_ne_zero hlength
  have hdiv := Nat.div_add_mod (view.val + epochLength.val - 1) epochLength.val
  have hmod := Nat.mod_lt (view.val + epochLength.val - 1) hpos
  rw [Nat.mul_comm]
  omega

theorem epochEnd_lt {epochLength : U32} (hlength : epochLength.val ≠ 0) (view : ViewNumber) :
    epochEnd epochLength view < view.val + epochLength.val := by
  unfold epochEnd
  have hpos : 0 < epochLength.val := Nat.pos_of_ne_zero hlength
  have hle := Nat.div_mul_le_self (view.val + epochLength.val - 1) epochLength.val
  omega

theorem Duration.fromSecs_mono {secs secs' : Nat} (h : secs ≤ secs') :
    fromSecs secs ≤ fromSecs secs' :=
  Nat.mul_le_mul_right _ h

/-! ## Filling the map -/

theorem mem_insertTimeouts {new : List (ViewNumber × Instant)} {view : ViewNumber} :
    ∀ {timeouts : HashMap ViewNumber Instant},
      view ∈ insertTimeouts timeouts new ↔ view ∈ timeouts ∨ view ∈ new.map Prod.fst := by
  induction new with
  | nil => intro timeouts; simp [insertTimeouts]
  | cons entry rest ih =>
    obtain ⟨view', deadline⟩ := entry
    intro timeouts
    have hcons : insertTimeouts timeouts ((view', deadline) :: rest) =
        insertTimeouts (timeouts.insert view' deadline) rest := rfl
    rw [hcons, ih, Std.ExtTreeMap.mem_insert, Std.LawfulEqCmp.compare_eq_iff_eq, List.map_cons,
      List.mem_cons]
    constructor
    · rintro ((rfl | hold) | hrest)
      · exact .inr (.inl rfl)
      · exact .inl hold
      · exact .inr (.inr hrest)
    · rintro (hold | rfl | hrest)
      · exact .inl (.inr hold)
      · exact .inl (.inl rfl)
      · exact .inr hrest

/-! ## The deadlines of an epoch -/

/-- The deadline of the view that comes `i` views after the first one. -/
def nthTimeout (config : PacemakerConfiguration) (start : ViewNumber) (now : Instant) (i : Nat) :
    ViewNumber × Instant :=
  (Fin.ofNat _ (start.val + i), now + Duration.fromSecs (config.maxViewTime.asSecs * (i + 1)))

/-- The deadlines from `start` on can be computed at `now`: the last of them is an instant that
can be represented. -/
structure Fits (config : PacemakerConfiguration) (start : ViewNumber) (now : Instant) : Prop where
  epochEnd_lt : epochEnd config.epochLength start < 2 ^ 64
  deadline_lt : now + Duration.fromSecs
    (config.maxViewTime.asSecs * (epochEnd config.epochLength start + 1 - start.val)) <
      Instant.limit

variable {config : PacemakerConfiguration} {start : ViewNumber} {now : Instant}

/-- Views that are not within an epoch of the highest one are no problem, if an epoch that starts
now ends at an instant that can be represented. -/
theorem Fits.of_lt (hlength : config.epochLength.val ≠ 0)
    (hview : start.val + config.epochLength.val < 2 ^ 64)
    (hnow : now + Duration.fromSecs (config.maxViewTime.asSecs * config.epochLength.val) <
      Instant.limit) : Fits config start now where
  epochEnd_lt := (HotStuffRs.epochEnd_lt hlength start).trans hview
  deadline_lt := by
    have hend := HotStuffRs.epochEnd_lt hlength start
    refine lt_of_le_of_lt (Nat.add_le_add_left (Duration.fromSecs_mono ?_) _) hnow
    exact Nat.mul_le_mul_left _ (by omega)

/-- A view of the epoch has the deadline of the last view or an earlier one. -/
theorem nthTimeout_le {i n : Nat} (h : i < n) :
    (nthTimeout config start now i).2 ≤
      now + Duration.fromSecs (config.maxViewTime.asSecs * n) :=
  Nat.add_le_add_left (Duration.fromSecs_mono (Nat.mul_le_mul_left _ h)) _

/-- Seconds that overflow would give an instant that cannot be represented. -/
theorem Instant.not_lt_limit {secs : Nat} (h : 2 ^ 64 ≤ secs) :
    ¬now + Duration.fromSecs secs < Instant.limit := by
  have hsum : ∀ t n : Nat, 2 ^ 64 ≤ n → ¬t + n * 10 ^ 9 < 2 ^ 63 * 10 ^ 9 := by omega
  exact hsum now secs h

/-- One round of the loop. -/
theorem timeout_eq (config : PacemakerConfiguration) (start : ViewNumber) (now : Instant)
    (i : Nat) :
    (if 2 ^ 64 ≤ config.maxViewTime.asSecs * (i + 1) then throw .panic
      else do
        let deadline ← Instant.add now (Duration.fromSecs (config.maxViewTime.asSecs * (i + 1)))
        return (Fin.ofNat _ (start.val + i), deadline) : Result (ViewNumber × Instant)) =
      if (nthTimeout config start now i).2 < Instant.limit then
        .ok (nthTimeout config start now i)
      else .error .panic := by
  have hdeadline : (nthTimeout config start now i).2 =
      now + Duration.fromSecs (config.maxViewTime.asSecs * (i + 1)) := rfl
  rw [hdeadline]
  unfold Instant.add
  by_cases hsecs : 2 ^ 64 ≤ config.maxViewTime.asSecs * (i + 1)
  · rw [if_pos hsecs, if_neg (Instant.not_lt_limit hsecs)]
    rfl
  · rw [if_neg hsecs]
    split
    · rfl
    · rfl

theorem epochTimeouts_eq (hlength : config.epochLength.val ≠ 0) :
    epochTimeouts config start now =
      if 2 ^ 64 ≤ epochEnd config.epochLength start then .error .panic
      else (List.range (epochEnd config.epochLength start + 1 - start.val)).mapM fun i =>
        if (nthTimeout config start now i).2 < Instant.limit then
          .ok (nthTimeout config start now i)
        else .error .panic := by
  unfold epochTimeouts
  rw [epoch_eq_ok.mpr ⟨hlength, rfl⟩, Result.ok_bind]
  simp only [timeout_eq]
  rfl

theorem epochTimeouts_of_fits (hlength : config.epochLength.val ≠ 0)
    (hfits : Fits config start now) :
    epochTimeouts config start now =
      .ok ((List.range (epochEnd config.epochLength start + 1 - start.val)).map
        (nthTimeout config start now)) := by
  rw [epochTimeouts_eq hlength, if_neg (Nat.not_le.mpr hfits.epochEnd_lt)]
  apply Result.mapM_eq_map
  intro i hi
  rw [if_pos ((nthTimeout_le (List.mem_range.mp hi)).trans_lt hfits.deadline_lt)]

/-- Only an overflow stops the computation. -/
theorem epochTimeouts_of_not_fits (hlength : config.epochLength.val ≠ 0)
    (hfits : ¬Fits config start now) : epochTimeouts config start now = .error .panic := by
  rw [epochTimeouts_eq hlength]
  split
  · rfl
  · rename_i hend
    have hle := le_epochEnd hlength start
    -- The deadline of the last view cannot be represented.
    have hlast : ¬(nthTimeout config start now
        (epochEnd config.epochLength start - start.val)).2 < Instant.limit := by
      intro hlt
      unfold nthTimeout at hlt
      rw [← Nat.sub_add_comm hle] at hlt
      exact hfits ⟨Nat.not_le.mp hend, hlt⟩
    apply Result.mapM_eq_error (a := epochEnd config.epochLength start - start.val)
    · exact List.mem_range.mpr (by omega)
    · rw [if_neg hlast]
    · intro i _ e hi
      split at hi
      · cases hi
      · cases hi
        rfl

theorem fits_of_epochTimeouts {timeouts : List (ViewNumber × Instant)}
    (h : epochTimeouts config start now = .ok timeouts) :
    config.epochLength.val ≠ 0 ∧ Fits config start now := by
  have hlength : config.epochLength.val ≠ 0 := by
    simp only [epochTimeouts, Result.bind_eq_ok, epoch_eq_ok] at h
    obtain ⟨n, ⟨hlength, -⟩, -⟩ := h
    exact hlength
  refine ⟨hlength, Classical.byContradiction fun hfits => ?_⟩
  rw [epochTimeouts_of_not_fits hlength hfits] at h
  cases h

/-- Every view up to the end of the epoch gets a deadline. -/
theorem mem_epochTimeouts {timeouts : List (ViewNumber × Instant)} {view : ViewNumber}
    (h : epochTimeouts config start now = .ok timeouts) (hstart : start ≤ view)
    (hend : view.val ≤ epochEnd config.epochLength start) : view ∈ timeouts.map Prod.fst := by
  obtain ⟨hlength, hfits⟩ := fits_of_epochTimeouts h
  have hle : start.val ≤ view.val := hstart
  rw [epochTimeouts_of_fits hlength hfits, Except.ok.injEq] at h
  subst h
  rw [List.map_map]
  refine List.mem_map.mpr ⟨view.val - start.val, List.mem_range.mpr (by omega), ?_⟩
  show Fin.ofNat _ (start.val + (view.val - start.val)) = view
  rw [Nat.add_sub_cancel' hle, Fin.ofNat_val_eq_self]

namespace Pacemaker

/-- There is a deadline for each view from the current one to the end of its epoch. -/
structure Timed (pm : Pacemaker) : Prop where
  epochLength_ne : pm.config.epochLength.val ≠ 0
  covers : ∀ view : ViewNumber, pm.viewInfo.view ≤ view →
    view.val ≤ epochEnd pm.config.epochLength pm.viewInfo.view → view ∈ pm.state.timeouts

theorem deadlineOf_eq_ok {state : PacemakerState} {view : ViewNumber}
    (h : view ∈ state.timeouts) : ∃ deadline, state.deadlineOf view = .ok deadline := by
  rw [Std.ExtTreeMap.mem_iff_isSome_getElem?, Option.isSome_iff_exists] at h
  obtain ⟨deadline, heq⟩ := h
  exact ⟨deadline, by rw [PacemakerState.deadlineOf, heq]⟩

/-- In a new epoch all its views get their deadlines anew. -/
theorem mem_updateTimeouts {state state' : PacemakerState} {view : ViewNumber}
    (h : state.updateTimeouts start config now = .ok state') (hstart : start ≤ view)
    (hend : view.val ≤ epochEnd config.epochLength start) : view ∈ state'.timeouts := by
  simp only [PacemakerState.updateTimeouts, Result.bind_eq_ok, Result.pure_eq,
    Except.ok.injEq] at h
  obtain ⟨timeouts, htimeouts, rfl⟩ := h
  exact mem_insertTimeouts.mpr (.inr (mem_epochTimeouts htimeouts hstart hend))

theorem updateTimeouts_error {state : PacemakerState} {e : Failure}
    (hlength : config.epochLength.val ≠ 0)
    (h : state.updateTimeouts start config now = .error e) :
    e = .panic ∧ ¬Fits config start now := by
  unfold PacemakerState.updateTimeouts at h
  by_cases hfits : Fits config start now
  · rw [epochTimeouts_of_fits hlength hfits] at h
    cases h
  · rw [epochTimeouts_of_not_fits hlength hfits] at h
    cases h
    exact ⟨rfl, hfits⟩

theorem new_timed {initView : ViewNumber} {vss : ValidatorSetState} {pm : Pacemaker}
    (h : Pacemaker.new config initView vss now = .ok pm) : pm.Timed := by
  simp only [Pacemaker.new, PacemakerState.initial, Result.bind_eq_ok, Result.pure_eq,
    Except.ok.injEq] at h
  obtain ⟨state, ⟨timeouts, htimeouts, rfl⟩, deadline, -, rfl⟩ := h
  exact {
    epochLength_ne := (fits_of_epochTimeouts htimeouts).1
    covers := fun view hview hend =>
      mem_insertTimeouts.mpr (.inr (mem_epochTimeouts htimeouts hview hend)) }

variable {cr : Crypto} {w : World Pacemaker Action Var.Val}

/-- The state in which a pacemaker goes to `nextView`: with new deadlines, unless the epoch is
the same. -/
def stateFor (pm : Pacemaker) (nextView : ViewNumber) (now : Instant) : Result PacemakerState := do
  let curEpoch ← epoch pm.viewInfo.view pm.config.epochLength
  let nextEpoch ← epoch nextView pm.config.epochLength
  if curEpoch ≠ nextEpoch then pm.state.updateTimeouts nextView pm.config now else return pm.state

/-- The state has deadlines for `nextView` and the views after it. -/
theorem Timed.stateFor {pm : Pacemaker} (h : pm.Timed) {nextView : ViewNumber}
    (hlt : pm.viewInfo.view < nextView) {state : PacemakerState}
    (hstate : pm.stateFor nextView now = .ok state) (view : ViewNumber) (hview : nextView ≤ view)
    (hend : view.val ≤ epochEnd pm.config.epochLength nextView) : view ∈ state.timeouts := by
  simp only [Pacemaker.stateFor, Result.bind_eq_ok, epoch_eq_ok] at hstate
  obtain ⟨curEpoch, ⟨-, hcur⟩, nextEpoch, ⟨-, hnext⟩, hstate⟩ := hstate
  split at hstate
  · exact mem_updateTimeouts hstate hview hend
  · rename_i hsame
    cases hstate
    have hepoch : epochEnd pm.config.epochLength pm.viewInfo.view =
        epochEnd pm.config.epochLength nextView := by
      unfold epochEnd
      rw [hcur, hnext, not_not.mp hsame]
    exact h.covers view (hlt.le.trans hview) (hepoch ▸ hend)

/-- The pacemaker in `nextView`. -/
def entering (pm : Pacemaker) (nextView : ViewNumber) (vss : ValidatorSetState)
    (state : PacemakerState) (deadline : Instant) : Pacemaker :=
  { pm with
    state := { state with
      timeoutVoteCollectors := ActiveCollectorPair.new pm.config.chainId nextView vss }
    viewInfo := { view := nextView, deadline } }

/-- The deadlines of the epoch of `nextView` are there, or can be computed. -/
def Enterable (pm : Pacemaker) (nextView : ViewNumber) (now : Instant) : Prop :=
  epochEnd pm.config.epochLength pm.viewInfo.view = epochEnd pm.config.epochLength nextView ∨
    Fits pm.config nextView now

theorem enterable_of_stateFor {pm : Pacemaker} {nextView : ViewNumber} {state : PacemakerState}
    (h : pm.stateFor nextView now = .ok state) : pm.Enterable nextView now := by
  simp only [Pacemaker.stateFor, Result.bind_eq_ok, epoch_eq_ok] at h
  obtain ⟨curEpoch, ⟨-, hcur⟩, nextEpoch, ⟨-, hnext⟩, h⟩ := h
  split at h
  · simp only [PacemakerState.updateTimeouts, Result.bind_eq_ok] at h
    obtain ⟨timeouts, htimeouts, -⟩ := h
    exact .inr (fits_of_epochTimeouts htimeouts).2
  · rename_i hsame
    left
    unfold epochEnd
    rw [hcur, hnext, not_not.mp hsame]

/-- Going to `nextView` fails if it is not a higher view, or if the deadlines of a new epoch
cannot be computed. -/
theorem Timed.updateView (h : w.mem.Timed) (nextView : ViewNumber) (vss : ValidatorSetState)
    (now : Instant) :
    (Pacemaker.updateView nextView vss now w =
        .error (.pacemakerError (.nonIncreasingViewError w.mem.viewInfo.view nextView)) w ∧
      nextView ≤ w.mem.viewInfo.view) ∨
    (Pacemaker.updateView nextView vss now w = .error .panic w ∧ ¬w.mem.Enterable nextView now) ∨
    ∃ state deadline, Pacemaker.updateView nextView vss now w =
        .ok () (w.setMem (w.mem.entering nextView vss state deadline)) ∧
      w.mem.viewInfo.view < nextView ∧ w.mem.Enterable nextView now ∧
      w.mem.stateFor nextView now = .ok state := by
  unfold Pacemaker.updateView
  rw [mem_bind_run]
  by_cases hle : nextView ≤ w.mem.viewInfo.view
  · left
    rw [if_pos hle]
    exact ⟨rfl, hle⟩
  · right
    have hlt : w.mem.viewInfo.view < nextView := not_le.mp hle
    have hepoch : ∀ view, epoch view w.mem.config.epochLength = .ok _ := fun view =>
      epoch_eq_ok.mpr ⟨h.epochLength_ne, rfl⟩
    rw [if_neg hle, hepoch, lift_ok_bind_run, hepoch, lift_ok_bind_run]
    cases hstate : w.mem.stateFor nextView now with
    | error e =>
      left
      rw [Pacemaker.stateFor, hepoch, Result.ok_bind, hepoch, Result.ok_bind] at hstate
      split at hstate
      · rename_i hne
        obtain ⟨rfl, hfits⟩ := updateTimeouts_error h.epochLength_ne hstate
        refine ⟨?_, fun henterable => henterable.elim (fun hend => hne ?_) hfits⟩
        · rw [if_pos hne, hstate, lift_error_bind_run]
        · exact Nat.eq_of_mul_eq_mul_right (Nat.pos_of_ne_zero h.epochLength_ne) hend
      · cases hstate
    | ok state =>
      right
      obtain ⟨deadline, hdeadline⟩ := deadlineOf_eq_ok
        (h.stateFor hlt hstate nextView le_rfl (le_epochEnd h.epochLength_ne nextView))
      refine ⟨state, deadline, ?_, hlt, enterable_of_stateFor hstate, rfl⟩
      rw [Pacemaker.stateFor, hepoch, Result.ok_bind, hepoch, Result.ok_bind] at hstate
      split at hstate
      · rename_i hne
        rw [if_pos hne, hstate, lift_ok_bind_run]
        beta_reduce
        rw [hdeadline, lift_ok_bind_run]
        rfl
      · rename_i hsame
        cases hstate
        rw [if_neg hsame, pure_bind]
        beta_reduce
        rw [hdeadline, lift_ok_bind_run]
        rfl

theorem Timed.entering {pm : Pacemaker} (h : pm.Timed) {nextView : ViewNumber}
    {vss : ValidatorSetState} {state : PacemakerState} {deadline : Instant}
    (hlt : pm.viewInfo.view < nextView) (hstate : pm.stateFor nextView now = .ok state) :
    (pm.entering nextView vss state deadline).Timed where
  epochLength_ne := h.epochLength_ne
  covers view hview hend := by
    have hmem := h.stateFor hlt hstate view hview hend
    exact hmem

/-- Nothing else that the handlers change in memory has to do with deadlines. -/
theorem Timed.congr {pm pm' : Pacemaker} (h : pm.Timed) (hconfig : pm'.config = pm.config)
    (hview : pm'.viewInfo.view = pm.viewInfo.view)
    (htimeouts : pm'.state.timeouts = pm.state.timeouts) : pm'.Timed where
  epochLength_ne := hconfig ▸ h.epochLength_ne
  covers view hle hend := by
    rw [htimeouts]
    rw [hview] at hle
    rw [hconfig, hview] at hend
    exact h.covers view hle hend

theorem Timed.extend {pm : Pacemaker} (h : pm.Timed) (deadline : Instant) :
    Timed { pm with
      state := { pm.state with timeouts := pm.state.timeouts.insert pm.viewInfo.view deadline }
      viewInfo := { pm.viewInfo with deadline } } where
  epochLength_ne := h.epochLength_ne
  covers view hview hend := Std.ExtTreeMap.mem_insert.mpr (.inr (h.covers view hview hend))

/-- A property of pacemakers that is kept whatever they do. -/
structure Closed (now : Instant) (P : Pacemaker → Prop) : Prop where
  timed : ∀ pm, P pm → pm.Timed
  collect : ∀ pm origin timeoutVote tc collectors, P pm →
    pm.state.timeoutVoteCollectors.collect origin timeoutVote = .ok (tc, collectors) →
    P { pm with state := { pm.state with timeoutVoteCollectors := collectors } }
  follow : ∀ pm vss, P pm → P { pm with state := { pm.state with
    timeoutVoteCollectors := (pm.state.timeoutVoteCollectors.updateValidatorSets vss).1 } }
  advanced : ∀ pm view, P pm → P { pm with state := { pm.state with lastAdvanceView := some view } }
  extend : ∀ pm deadline, P pm → P { pm with
    state := { pm.state with timeouts := pm.state.timeouts.insert pm.viewInfo.view deadline }
    viewInfo := { pm.viewInfo with deadline } }
  enter : ∀ pm nextView vss state deadline, P pm → pm.viewInfo.view < nextView →
    pm.stateFor nextView now = .ok state → P (pm.entering nextView vss state deadline)

theorem closed_timed (now : Instant) : Closed now Timed where
  timed _ h := h
  collect _ _ _ _ _ h _ := h.congr rfl rfl rfl
  follow _ _ h := h.congr rfl rfl rfl
  advanced _ _ h := h.congr rfl rfl rfl
  extend _ deadline h := h.extend deadline
  enter _ _ _ _ _ h hlt hstate := h.entering hlt hstate

namespace Closed

variable {P : Pacemaker → Prop}

/-- A handler that keeps a property of pacemakers, also where it fails. -/
abbrev KeepsMem {α : Type} (P : Pacemaker → Prop) (m : Handler α) : Prop :=
  Keeps (fun w => P w.mem) (fun w => P w.mem) m

theorem keeps_lift {α : Type} (x : Result α) : KeepsMem P (lift x) := .lift (fun _ => id) x

theorem keeps_write (wb : Kv.Batch Var.Val) : KeepsMem P (write wb) := fun _ => id

theorem keeps_updateView (hP : Closed now P) {vss : ValidatorSetState} {nextView : ViewNumber} :
    KeepsMem P (updateView nextView vss now) := by
  intro w h
  unfold wp
  rcases (hP.timed _ h).updateView nextView vss now with
    ⟨heq, -⟩ | ⟨heq, -⟩ | ⟨state, deadline, heq, hlt, -, hstate⟩
  · rw [heq]
    exact h
  · rw [heq]
    exact h
  · rw [heq]
    exact hP.enter _ _ _ _ _ h hlt hstate

theorem keeps_extendView (hP : Closed now P) : KeepsMem P (extendView now) :=
  .bind_mem fun _ h => .bind (keeps_lift _) fun _ => .ite (.throw (fun _ => id) _)
    (.bind (keeps_lift _) fun _ => .setMem fun _ _ => hP.extend _ _ h)

theorem keeps_advance (hP : Closed now P) (certificate : ProgressCertificate) :
    KeepsMem P (advance certificate) :=
  .bind (.act fun _ => id) fun _ => .bind_mem fun _ h => .setMem fun _ _ => hP.advanced _ _ h

theorem keeps_onTimeout (hP : Closed now P) {vss : ValidatorSetState} :
    KeepsMem P (onTimeout cr now vss) := by
  refine .bind .mem fun pm => .bind .store fun tree => .bind (keeps_lift _) fun isEpochChange =>
    .ite ?_ (.bind (keeps_lift _) fun _ => hP.keeps_updateView)
  refine .ite ?_ hP.keeps_extendView
  exact .bind (keeps_lift _) fun highestTc => .bind (.act fun _ => id) fun _ => hP.keeps_extendView

theorem keeps_tick (hP : Closed now P) : KeepsMem P (tick cr now) :=
  .bind_mem fun _ h => .bind .store fun _ => .bind (keeps_lift _) fun _ =>
    .ite hP.keeps_onTimeout (.bind (.setMem fun _ _ => hP.follow _ _ h) fun _ =>
      .bind (keeps_lift _) fun _ => .ite (hP.keeps_advance _) (.pure _))

theorem keeps_onCollectTc (hP : Closed now P) {vss : ValidatorSetState}
    {newTc : TimeoutCertificate} : KeepsMem P (onCollectTc vss newTc) :=
  .bind .mem fun _ => .bind .store fun _ => .bind (keeps_lift _) fun _ =>
    .ite (.bind (keeps_write _) fun _ => .ite (hP.keeps_advance _) (.pure _)) (.pure _)

theorem keeps_onFallbackTc (hP : Closed now P) {vss : ValidatorSetState}
    {tc : TimeoutCertificate} : KeepsMem P (onFallbackTc now vss tc) :=
  .bind .store fun _ => .bind (keeps_lift _) fun _ =>
    .ite (.bind (keeps_write _) fun _ => .bind (keeps_lift _) fun _ => hP.keeps_updateView) (.pure _)

theorem keeps_onReceiveTimeoutVote (hP : Closed now P) {timeoutVote : TimeoutVote}
    {origin : VerifyingKey} : KeepsMem P (onReceiveTimeoutVote cr now timeoutVote origin) := by
  refine .bind_mem fun w h => .bind .store fun tree => .bind (keeps_lift _) fun vss =>
    .ite (.bind (keeps_lift _) fun isEpochChange => .ite ?_ (.pure _)) (.pure _)
  refine .bind (keeps_lift _) fun fallbackTc => .lift_bind (fun _ => id)
    fun ⟨newTc, collectors⟩ hcollect =>
      .bind (.setMem fun _ _ => hP.collect _ _ _ _ _ h hcollect) fun _ => ?_
  cases newTc with
  | some newTc => exact hP.keeps_onCollectTc
  | none =>
    cases fallbackTc with
    | some tc => exact hP.keeps_onFallbackTc
    | none => exact .pure _

theorem keeps_updateHighestTc (certificate : ProgressCertificate) :
    KeepsMem P (updateHighestTc certificate) := by
  cases certificate with
  | phaseCertificate pc => exact .pure _
  | timeoutCertificate tc =>
    exact .bind .store fun tree => .bind (keeps_lift _) fun _ => .ite (keeps_write _) (.pure _)

theorem keeps_onReceiveAdvanceView (hP : Closed now P) {advanceView : AdvanceView}
    {origin : VerifyingKey} : KeepsMem P (onReceiveAdvanceView cr now advanceView origin) := by
  refine .bind .mem fun pm => .bind .store fun tree => .bind (keeps_lift _) fun vss =>
    .ite (.bind (keeps_lift _) fun isValid => .ite ?_ (.pure _)) (.pure _)
  refine .bind (keeps_updateHighestTc _) fun _ => .ite ?_ ?_
  · exact .bind (hP.keeps_advance _) fun _ => .bind (keeps_lift _) fun _ => hP.keeps_updateView
  · exact .bind (keeps_lift _) fun _ => hP.keeps_updateView

theorem keeps_onReceiveMsg (hP : Closed now P) {msg : PacemakerMessage} {origin : VerifyingKey} :
    KeepsMem P (onReceiveMsg cr now msg origin) := by
  cases msg with
  | timeoutVote timeoutVote => exact hP.keeps_onReceiveTimeoutVote
  | advanceView advanceView => exact hP.keeps_onReceiveAdvanceView

end Closed

/-! ## Failures -/

/-- The failures that no pacemaker has: that a view has no deadline, and that a view is extended
which is no epoch-change view. -/
def DeadlineFailure (e : Failure) : Prop :=
  (∃ view, e = .pacemakerError (.getViewTimeoutError view)) ∨
    ∃ view, e = .pacemakerError (.triedToExtendNonEpochView view)

theorem not_deadlineFailure_error (e : BlockTreeError) : ¬DeadlineFailure (.error e) := by
  rintro (⟨_, h⟩ | ⟨_, h⟩) <;> cases h

theorem failsIn_expect (tree : BlockTree) (v : Var) (key : Key) :
    Result.FailsIn (fun e => ¬DeadlineFailure e) (tree.kv.expect v key) :=
  KVGet.failsIn_expect not_deadlineFailure_error v key

/-- The pacemakers that can be reached from a new one. -/
inductive Reached (config : PacemakerConfiguration) : Pacemaker → Prop
  | new {initView : ViewNumber} {vss : ValidatorSetState} {now : Instant} {pm : Pacemaker}
    (h : Pacemaker.new config initView vss now = .ok pm) : Reached config pm
  | updateView {pm : Pacemaker} {nextView : ViewNumber} {vss : ValidatorSetState} {now : Instant}
    {w w' : World Pacemaker Action Var.Val} (h : Reached config pm) (hw : w.mem = pm)
    (hrun : Pacemaker.updateView nextView vss now w = .ok () w') : Reached config w'.mem
  | tick {pm : Pacemaker} {cr : Crypto} {now : Instant} {w w' : World Pacemaker Action Var.Val}
    (h : Reached config pm) (hw : w.mem = pm) (hrun : Pacemaker.tick cr now w = .ok () w') :
    Reached config w'.mem

theorem Reached.timed {config : PacemakerConfiguration} {pm : Pacemaker} (h : Reached config pm) :
    pm.Timed := by
  induction h with
  | new h => exact new_timed h
  | updateView _ hw hrun ih =>
    subst hw
    exact wp_ok ((closed_timed _).keeps_updateView _ ih) hrun
  | tick _ hw hrun ih =>
    subst hw
    exact wp_ok ((closed_timed _).keeps_tick _ ih) hrun

end Pacemaker

end HotStuffRs
