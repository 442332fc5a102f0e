import HotStuffRs.Pacemaker.Deadlines

/-
The distances between the deadlines of an epoch.

The time for a view is taken in whole seconds, and so the deadlines are as far apart as
configured if the configured time is a number of whole seconds.
-/

namespace HotStuffRs

open Kv Kv.Process

namespace Duration

theorem fromSecs_asSecs_eq_iff {d : Duration} : fromSecs d.asSecs = d ↔ d % 10 ^ 9 = 0 := by
  have hdiv : ∀ n : Nat, n / 10 ^ 9 * 10 ^ 9 = n ↔ n % 10 ^ 9 = 0 := by omega
  exact hdiv d

theorem fromSecs_mul (secs n : Nat) : fromSecs (secs * n) = n * fromSecs secs := by
  unfold fromSecs
  rw [Nat.mul_comm secs n, Nat.mul_assoc]

end Duration

/-! ## The map that the loops fill -/

/-- A view gets the one deadline that the loop has for it. -/
theorem getElem?_insertTimeouts {new : List (ViewNumber × Instant)} {view : ViewNumber}
    {deadline : Instant} (hnodup : (new.map Prod.fst).Nodup) (h : (view, deadline) ∈ new)
    {timeouts : HashMap ViewNumber Instant} :
    (insertTimeouts timeouts new)[view]? = some deadline :=
  getElem?_foldl_insert_of_mem hnodup timeouts h

variable {config : PacemakerConfiguration} {start : ViewNumber} {now : Instant}

theorem nodup_nthTimeout (hfits : Fits config start now) :
    (((List.range (epochEnd config.epochLength start + 1 - start.val)).map
      (nthTimeout config start now)).map Prod.fst).Nodup := by
  have hend := hfits.epochEnd_lt
  rw [List.map_map]
  apply List.Nodup.map_on _ List.nodup_range
  intro i hi j hj h
  rw [List.mem_range] at hi hj
  have hval : (start.val + i) % 2 ^ 64 = (start.val + j) % 2 ^ 64 := congrArg Fin.val h
  omega

/-- What either loop leaves in the map for the views of the epoch. -/
theorem getElem?_epochTimeouts {entries : List (ViewNumber × Instant)}
    (h : epochTimeouts config start now = .ok entries) {view : ViewNumber} (hstart : start ≤ view)
    (hend : view.val ≤ epochEnd config.epochLength start) {timeouts : HashMap ViewNumber Instant} :
    (insertTimeouts timeouts entries)[view]? =
      some (now + (view.val - start.val + 1) * Duration.fromSecs config.maxViewTime.asSecs) := by
  obtain ⟨hlength, hfits⟩ := fits_of_epochTimeouts h
  rw [epochTimeouts_of_fits hlength hfits, Except.ok.injEq] at h
  subst h
  apply getElem?_insertTimeouts (nodup_nthTimeout hfits)
  apply List.mem_map.mpr
  have hle : start.val ≤ view.val := hstart
  refine ⟨view.val - start.val, List.mem_range.mpr (by omega), ?_⟩
  unfold nthTimeout
  rw [Nat.add_sub_cancel' hle, Fin.ofNat_val_eq_self, Duration.fromSecs_mul]

/-! ## Evenly spaced deadlines -/

/-- Each view from `start` to the end of its epoch gets `maxViewTime`, the first one from `now`
on. -/
structure EvenlySpaced (config : PacemakerConfiguration) (start : ViewNumber) (now : Instant)
    (timeouts : HashMap ViewNumber Instant) : Prop where
  deadline : ∀ view : ViewNumber, start ≤ view → view.val ≤ epochEnd config.epochLength start →
    timeouts[view]? = some (now + (view.val - start.val + 1) * config.maxViewTime)
  increasing : ∀ view view' : ViewNumber, start ≤ view → view < view' →
    view'.val ≤ epochEnd config.epochLength start →
    ∃ d d', timeouts[view]? = some d ∧ timeouts[view']? = some d' ∧ d < d'

/-- The time for a view is a number of whole seconds, and the deadlines can be computed. -/
structure InWholeSeconds (config : PacemakerConfiguration) (start : ViewNumber) (now : Instant) :
    Prop where
  epochLength_ne : config.epochLength.val ≠ 0
  fits : Fits config start now
  whole : config.maxViewTime % 10 ^ 9 = 0

theorem EvenlySpaced.of_deadline {timeouts : HashMap ViewNumber Instant}
    (hpos : 0 < config.maxViewTime)
    (h : ∀ view : ViewNumber, start ≤ view → view.val ≤ epochEnd config.epochLength start →
      timeouts[view]? = some (now + (view.val - start.val + 1) * config.maxViewTime)) :
    EvenlySpaced config start now timeouts where
  deadline := h
  increasing view view' hstart hlt hend := by
    have hval : view.val < view'.val := hlt
    have hle : start.val ≤ view.val := hstart
    refine ⟨_, _, h view hstart (hval.le.trans hend), h view' (hstart.trans hlt.le) hend, ?_⟩
    apply Nat.add_lt_add_left
    apply Nat.mul_lt_mul_of_pos_right _ hpos
    omega

/-- The loops space the deadlines evenly if and only if no part of a second is lost. -/
theorem evenlySpaced_insertTimeouts_iff {entries : List (ViewNumber × Instant)}
    (hpos : 0 < config.maxViewTime) (h : epochTimeouts config start now = .ok entries)
    {timeouts : HashMap ViewNumber Instant} :
    EvenlySpaced config start now (insertTimeouts timeouts entries) ↔
      config.maxViewTime % 10 ^ 9 = 0 := by
  rw [← Duration.fromSecs_asSecs_eq_iff]
  constructor
  · intro heven
    have hend := le_epochEnd (fits_of_epochTimeouts h).1 start
    have hfirst := heven.deadline start le_rfl hend
    rw [getElem?_epochTimeouts h le_rfl hend, Option.some.injEq, Nat.sub_self, Nat.zero_add,
      Nat.one_mul, Nat.one_mul] at hfirst
    exact Nat.add_left_cancel hfirst
  · intro hwhole
    apply EvenlySpaced.of_deadline hpos
    intro view hstart hend
    rw [getElem?_epochTimeouts h hstart hend, hwhole]

/-- Computing the deadlines of an epoch and putting them into any map. -/
theorem exists_evenlySpaced_iff (hpos : 0 < config.maxViewTime) (now : Instant)
    (timeouts : HashMap ViewNumber Instant) :
    (∃ entries, epochTimeouts config start now = .ok entries ∧
      EvenlySpaced config start now (insertTimeouts timeouts entries)) ↔
      InWholeSeconds config start now := by
  constructor
  · intro h
    obtain ⟨entries, hentries, heven⟩ := h
    obtain ⟨hlength, hfits⟩ := fits_of_epochTimeouts hentries
    exact ⟨hlength, hfits, (evenlySpaced_insertTimeouts_iff hpos hentries).mp heven⟩
  · intro h
    have hentries := epochTimeouts_of_fits h.epochLength_ne h.fits
    exact ⟨_, hentries, (evenlySpaced_insertTimeouts_iff hpos hentries).mpr h.whole⟩

namespace Pacemaker

variable {vss : ValidatorSetState} {w : World Pacemaker Action Var.Val} {nextView : ViewNumber}

theorem new_eq_ok_iff {pm : Pacemaker} :
    Pacemaker.new config start vss now = .ok pm ↔ ∃ entries deadline,
      epochTimeouts config start now = .ok entries ∧
      (insertTimeouts ∅ entries)[start]? = some deadline ∧
      pm = { config
             state := {
               timeouts := insertTimeouts ∅ entries
               timeoutVoteCollectors := ActiveCollectorPair.new config.chainId start vss
               lastAdvanceView := none }
             viewInfo := { view := start, deadline } } := by
  simp only [Pacemaker.new, PacemakerState.initial, Result.bind_eq_ok, Result.pure_eq,
    Except.ok.injEq]
  constructor
  · rintro ⟨_, ⟨entries, hentries, rfl⟩, deadline, hdeadline, rfl⟩
    refine ⟨entries, deadline, hentries, ?_, rfl⟩
    unfold PacemakerState.deadlineOf at hdeadline
    split at hdeadline
    · rename_i heq
      cases hdeadline
      exact heq
    · cases hdeadline
  · rintro ⟨entries, deadline, hentries, hdeadline, rfl⟩
    refine ⟨_, ⟨entries, hentries, rfl⟩, deadline, ?_, rfl⟩
    unfold PacemakerState.deadlineOf
    rw [hdeadline]

/-- Entering a view of another epoch. -/
theorem updateView_newEpoch (hlt : w.mem.viewInfo.view < nextView)
    (hepoch : epoch w.mem.viewInfo.view w.mem.config.epochLength ≠
      epoch nextView w.mem.config.epochLength) :
    updateView nextView vss now w =
      (do
        let state ← lift (w.mem.state.updateTimeouts nextView w.mem.config now)
        let deadline ← lift (state.deadlineOf nextView)
        setMem (w.mem.entering nextView vss state deadline) : Handler Unit) w := by
  have hlength : w.mem.config.epochLength.val ≠ 0 := by
    intro hzero
    apply hepoch
    unfold epoch
    rw [if_pos hzero, if_pos hzero]
  have hok : ∀ view, epoch view w.mem.config.epochLength = .ok _ := fun view =>
    epoch_eq_ok.mpr ⟨hlength, rfl⟩
  rw [hok, hok] at hepoch
  unfold updateView
  rw [mem_bind_run, if_neg (not_le.mpr hlt), hok, lift_ok_bind_run, hok, lift_ok_bind_run,
    if_pos fun heq => hepoch (congrArg Except.ok heq)]
  rfl

theorem new_evenlySpaced_iff (hpos : 0 < config.maxViewTime) :
    (∃ pm, Pacemaker.new config start vss now = .ok pm ∧
      EvenlySpaced config start now pm.state.timeouts) ↔ InWholeSeconds config start now := by
  rw [← exists_evenlySpaced_iff hpos now ∅]
  constructor
  · intro h
    obtain ⟨pm, hpm, heven⟩ := h
    obtain ⟨entries, deadline, hentries, -, rfl⟩ := new_eq_ok_iff.mp hpm
    exact ⟨entries, hentries, heven⟩
  · intro h
    obtain ⟨entries, hentries, heven⟩ := h
    have hend := le_epochEnd (fits_of_epochTimeouts hentries).1 start
    have hdeadline := heven.deadline start le_rfl hend
    exact ⟨_, new_eq_ok_iff.mpr ⟨entries, _, hentries, hdeadline, rfl⟩, heven⟩

theorem updateView_evenlySpaced_iff (hpos : 0 < w.mem.config.maxViewTime)
    (hlt : w.mem.viewInfo.view < nextView)
    (hepoch : epoch w.mem.viewInfo.view w.mem.config.epochLength ≠
      epoch nextView w.mem.config.epochLength) :
    (∃ w', updateView nextView vss now w = .ok () w' ∧
      EvenlySpaced w.mem.config nextView now w'.mem.state.timeouts) ↔
      InWholeSeconds w.mem.config nextView now := by
  rw [← exists_evenlySpaced_iff hpos now
    (w.mem.state.timeouts.filter fun view _ => nextView ≤ view), updateView_newEpoch hlt hepoch]
  unfold PacemakerState.updateTimeouts
  constructor
  · intro h
    obtain ⟨w', hw', heven⟩ := h
    cases hentries : epochTimeouts w.mem.config nextView now with
    | error e =>
      rw [hentries] at hw'
      cases hw'
    | ok entries =>
      rw [hentries, Result.ok_bind, Result.pure_eq, lift_ok_bind_run] at hw'
      unfold PacemakerState.deadlineOf at hw'
      split at hw'
      · rw [lift_ok_bind_run, setMem_run] at hw'
        cases hw'
        exact ⟨entries, rfl, heven⟩
      · cases hw'
  · intro h
    obtain ⟨entries, hentries, heven⟩ := h
    have hend := le_epochEnd (fits_of_epochTimeouts hentries).1 nextView
    have hdeadline := heven.deadline nextView le_rfl hend
    rw [hentries, Result.ok_bind, Result.pure_eq, lift_ok_bind_run]
    unfold PacemakerState.deadlineOf
    rw [hdeadline, lift_ok_bind_run]
    exact ⟨_, rfl, heven⟩

/-- Whether a replica starts in a view or enters the epoch of a higher one, the deadlines from
there to the end of the epoch are evenly spaced if and only if the configured time is a number
of whole seconds, unless the numbers involved overflow. -/
theorem evenly_spaced_iff (vss : ValidatorSetState) (now : Instant) :
    (∀ config start, 0 < config.maxViewTime →
      ((∃ pm, Pacemaker.new config start vss now = .ok pm ∧
        EvenlySpaced config start now pm.state.timeouts) ↔ InWholeSeconds config start now)) ∧
    ∀ (w : World Pacemaker Action Var.Val) nextView, 0 < w.mem.config.maxViewTime →
      w.mem.viewInfo.view < nextView →
      epoch w.mem.viewInfo.view w.mem.config.epochLength ≠
        epoch nextView w.mem.config.epochLength →
      ((∃ w', updateView nextView vss now w = .ok () w' ∧
        EvenlySpaced w.mem.config nextView now w'.mem.state.timeouts) ↔
        InWholeSeconds w.mem.config nextView now) :=
  ⟨fun _ _ hpos => new_evenlySpaced_iff hpos,
    fun _ _ hpos hlt hepoch => updateView_evenlySpaced_iff hpos hlt hepoch⟩

/-- A replica that starts in view 3 of an epoch of 5 views, with a second for each. -/
theorem evenly_spaced_one_second : ∃ pm,
    Pacemaker.new ⟨7, 1, 5, 10 ^ 9⟩ 3 ⟨.new, .new, none, true⟩ 0 = .ok pm ∧
      EvenlySpaced ⟨7, 1, 5, 10 ^ 9⟩ 3 0 pm.state.timeouts :=
  ((evenly_spaced_iff _ 0).1 _ 3 (by decide)).mpr {
    epochLength_ne := by decide
    fits := { epochEnd_lt := by decide, deadline_lt := by decide }
    whole := by decide }

/-- With half a second for each view, all of its deadlines are at the start. -/
theorem half_second_deadlines : ¬∃ pm,
    Pacemaker.new ⟨7, 1, 5, 500000000⟩ 3 ⟨.new, .new, none, true⟩ 0 = .ok pm ∧
      EvenlySpaced ⟨7, 1, 5, 500000000⟩ 3 0 pm.state.timeouts := by
  intro h
  have hwhole := ((new_evenlySpaced_iff (by decide)).mp h).whole
  revert hwhole
  decide

end Pacemaker

end HotStuffRs
