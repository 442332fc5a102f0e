import HotStuffRs.Replica.Emits
import HotStuffRs.Replica.Votes

/-
Leaders.

A replica proposes or nudges right after it has taken note of a view that it leads, and so at
most once a view.  As the note outlives a crash, a restart does not make it propose again.
-/

namespace HotStuffRs

open Kv Lts

/-- The message that an action sends, if it does. -/
def Action.message? : Action → Option Message
  | .send _ msg => some msg
  | .broadcast msg => some msg
  | .updateValidatorSet _ => none

/-- The view that a message leads with a proposal or a nudge. -/
def Message.ledView? : Message → Option ViewNumber
  | .progress (.hotStuff (.proposal proposal)) => some proposal.view
  | .progress (.hotStuff (.nudge nudge)) => some nudge.view
  | _ => none

def Event.ledView? : Event → Option ViewNumber
  | .effect (.act a) => a.message?.bind Message.ledView?
  | _ => none

/-- The views that a replica has led, one for each proposal or nudge, in order. -/
def ledViews (log : List Event) : List ViewNumber := log.filterMap Event.ledView?

theorem ledViews_snoc_of_none {log : List Event} {e : Event} (he : e.ledView? = none) :
    ledViews (log ++ [e]) = ledViews log := by
  simp [ledViews, he]

theorem ledViews_snoc {log : List Event} {e : Event} {view : ViewNumber}
    (he : e.ledView? = some view) : ledViews (log ++ [e]) = ledViews log ++ [view] := by
  simp [ledViews, he]

namespace BlockTree

/-- An update does not write the progress variables that it leaves as they are. -/
theorem ne_key_of_mem_updateBatch {s : BlockTree} {justify : PhaseCertificate} {fuel : Nat}
    {wb : WriteBatch} {updates : Option ValidatorSetUpdates}
    (h : s.updateBatch fuel justify = .ok (wb, updates)) {v : Var} (hv : v.isProgress = true)
    (hlock : v ≠ .lockedPc) (hhigh : v ≠ .highestPc) : ∀ o ∈ wb, v ≠ o.key := by
  obtain ⟨highest, new, target, commitBatch, -, -, -, hcommit, hnone, rfl⟩ := updateBatch_eq_ok h
  rintro o ho rfl
  rcases List.mem_append.mp ho with ho | ho
  · rcases List.mem_append.mp ho with ho | ho
    · rcases List.mem_append.mp ho with ho | ho
      · split at ho
        · obtain rfl := List.mem_singleton.mp ho
          exact hhigh rfl
        · cases ho
      · cases new with
        | none => cases ho
        | some pc =>
          obtain rfl := List.mem_singleton.mp ho
          exact hlock rfl
    · cases target with
      | none =>
        rw [hnone rfl] at ho
        cases ho
      | some target =>
        obtain ⟨committed, hcommit⟩ := hcommit target rfl
        rw [not_isProgress_of_mem_commit hcommit ho] at hv
        cases hv
  · split at ho
    · obtain rfl := List.mem_singleton.mp ho
      cases hv
    · cases ho

end BlockTree

namespace Protocol

open BlockTree

variable {cr : Crypto} {config : Configuration} {apps : App → Prop} {s₀ s s' : BlockTree}
  {log : List Event} {e : Event} {v v' : ViewNumber}

/-- Only what a replica emits as a leader is a proposal or a nudge. -/
theorem Emits.of_ledView? {last : Option Replica.Effect} {a : Action} {view : ViewNumber}
    (h : Emits cr config apps s last (.act a)) (hview : a.message?.bind Message.ledView? = some view) :
    last = enters view ∧ s.Leads config view := by
  cases h with
  | repropose hlast hleads | propose hlast hleads | nudge hlast hleads =>
    obtain rfl := Option.some.inj hview
    exact ⟨hlast, hleads⟩
  | tell | phaseVote | newView | timeoutVote | advanceView | request => cases hview

/-- The event that takes note of a view. -/
def entering (v : ViewNumber) : Event := .effect (.write (WriteBatch.setHighestViewEntered v))

/-- What a replica in view `v` knows of the views that it has led. -/
structure LedInOrder (log : List Event) (s : BlockTree) (v : ViewNumber) : Prop where
  entered : ∀ entered, s .highestViewEntered = some entered → entered ≤ v
  noted : ∀ led ∈ ledViews log, ∃ entered, s .highestViewEntered = some entered ∧ led ≤ entered
  fresh : ∀ v', log.getLast? = some (entering v') →
    s .highestViewEntered = some v' ∧ ∀ led ∈ ledViews log, led < v'
  ascending : (ledViews log).Pairwise (· < ·)

namespace LedInOrder

theorem init {s₀ : BlockTree} (h : Algorithm.initView s₀ = .ok v) : LedInOrder [] s₀ v where
  entered := (VotesInOrder.init h).entered
  noted := nofun
  fresh := nofun
  ascending := .nil

/-- The replica goes on without entering a view or leading one. -/
theorem go (h : LedInOrder log s v) (he : e.ledView? = none) (hne : ∀ v', e ≠ entering v')
    (hentered : s' .highestViewEntered = s .highestViewEntered) : LedInOrder (log ++ [e]) s' v where
  entered := by
    rw [hentered]
    exact h.entered
  noted := by
    rw [ledViews_snoc_of_none he, hentered]
    exact h.noted
  fresh v' hlast := by
    rw [List.getLast?_concat] at hlast
    exact absurd (Option.some.inj hlast) (hne v')
  ascending := by
    rw [ledViews_snoc_of_none he]
    exact h.ascending

theorem update (h : LedInOrder log s v) {justify : PhaseCertificate} {fuel : Nat} {wb : WriteBatch}
    {updates : Option ValidatorSetUpdates}
    (hupdate : s.updateBatch fuel justify = .ok (wb, updates)) :
    LedInOrder (log ++ [.effect (.write wb)]) (s.write wb) v := by
  have hkeys := ne_key_of_mem_updateBatch hupdate (v := .highestViewEntered) rfl (by simp) (by simp)
  refine h.go rfl (fun v' heq => ?_) (Store.write_of_notMem s hkeys)
  cases heq
  exact hkeys _ List.mem_cons_self rfl

/-- The other notes are not about entering a view. -/
theorem note (h : LedInOrder log s v) {var : Var} {x : var.Val} (hvar : var ≠ .highestViewEntered) :
    LedInOrder (log ++ [.effect (.write [.set var x])]) (s.write [.set var x]) v := by
  refine h.go rfl (fun v' heq => ?_) (Store.apply_of_ne s fun hkey => hvar hkey.symm)
  have hset := (List.cons.inj (Effect.write.inj (Event.effect.inj heq))).1
  exact hvar (congrArg Op.key hset)

theorem enterView (h : LedInOrder log s v) (hv : v < v') :
    LedInOrder (log ++ [entering v']) (s.write (WriteBatch.setHighestViewEntered v')) v' := by
  have hwrite : s.write (WriteBatch.setHighestViewEntered v') .highestViewEntered = some v' :=
    Store.apply_set s .highestViewEntered v'
  have hled : ∀ led ∈ ledViews log, led < v' := by
    intro led hmem
    obtain ⟨entered, hentered, hle⟩ := h.noted led hmem
    exact (hle.trans (h.entered entered hentered)).trans_lt hv
  refine ⟨fun entered h' => (Option.some.inj (hwrite.symm.trans h')).ge, ?_, fun v'' hlast => ?_, ?_⟩
  · rw [ledViews_snoc_of_none rfl]
    exact fun led hmem => ⟨v', hwrite, (hled led hmem).le⟩
  · rw [List.getLast?_concat] at hlast
    cases hlast
    rw [ledViews_snoc_of_none rfl]
    exact ⟨hwrite, hled⟩
  · rw [ledViews_snoc_of_none rfl]
    exact h.ascending

/-- A proposal or a nudge comes right after the note of its view. -/
theorem act (h : LedInOrder log s v) {a : Action}
    (hled : ∀ view, a.message?.bind Message.ledView? = some view →
      log.getLast? = some (entering view)) :
    LedInOrder (log ++ [.effect (.act a)]) s v := by
  have hne : ∀ v', Event.effect (.act a) ≠ entering v' := by
    intro v' heq
    cases heq
  cases hview : a.message?.bind Message.ledView? with
  | none => exact h.go hview hne rfl
  | some view =>
    have he : Event.ledView? (.effect (.act a)) = some view := hview
    obtain ⟨hentered, hlt⟩ := h.fresh view (hled view hview)
    refine ⟨h.entered, ?_, fun v' hlast => ?_, ?_⟩
    · rw [ledViews_snoc he, List.forall_mem_append, List.forall_mem_singleton]
      exact ⟨h.noted, view, hentered, le_rfl⟩
    · rw [List.getLast?_concat] at hlast
      exact absurd (Option.some.inj hlast) (hne v')
    · rw [ledViews_snoc he, List.pairwise_append]
      refine ⟨h.ascending, List.pairwise_singleton _ _, fun led hmem => ?_⟩
      rw [List.forall_mem_singleton]
      exact hlt led hmem

theorem crash (h : LedInOrder log s v) (hv' : Algorithm.initView s = .ok v') :
    LedInOrder (log ++ [.crash]) s v' := by
  have hgo : LedInOrder (log ++ [.crash]) s v := by
    refine h.go rfl (fun v' heq => ?_) rfl
    cases heq
  exact ⟨(VotesInOrder.init hv').entered, hgo.noted, hgo.fresh, hgo.ascending⟩

theorem step {a b : State} (h : LedInOrder log a.tree a.view) (hstep : Step cr config apps a e b)
    (htree : a.tree = s₀.replay log) (hemits : EmitsAll cr config apps s₀ (log ++ [e])) :
    LedInOrder (log ++ [e]) b.tree b.view := by
  have hact : ∀ x : Action, e = .effect (.act x) →
      LedInOrder (log ++ [.effect (.act x)]) a.tree a.view := by
    rintro x rfl
    refine h.act fun view hview => ?_
    obtain ⟨last, hlast, hemits⟩ := hemits log _ List.prefix_rfl
    obtain ⟨rfl, -⟩ := hemits.of_ledView? hview
    exact hlast _ rfl
  cases hstep with
  | act | vote => exact hact _ rfl
  | insert =>
    refine h.go rfl (fun v' heq => ?_) (insert_of_block?_eq_none rfl (by simp))
    have hbatch := Effect.write.inj (Event.effect.inj heq)
    cases hbatch
  | updateInserted hupdate | nudge _ _ _ _ hupdate | accept _ _ _ hupdate => exact h.update hupdate
  | record | setHighestTc => exact h.note (by simp)
  | enterView _ hv => exact h.enterView hv
  | crash hview => exact h.crash hview

end LedInOrder

theorem ledInOrder_of_path {v₀ : ViewNumber} {a : State} (hv₀ : Algorithm.initView s₀ = .ok v₀)
    (path : Path (Step cr config apps) ⟨s₀, v₀, .idle⟩ log a)
    (hemits : EmitsAll cr config apps s₀ log) : LedInOrder log a.tree a.view := by
  induction path with
  | nil => exact .init hv₀
  | @snoc log t e u path last ih =>
    exact (ih (EmitsAll.of_isPrefix hemits (List.prefix_append ..))).step last (path_tree path) hemits

/-- In every history, each proposal or nudge is sent right after its view was entered by a leader
of that view, and no two of them are in the same view, whatever crashes there are in between. -/
theorem leads_once (h : History cr config apps s₀ log) :
    (ledViews log).Pairwise (· < ·) ∧
    ∀ before a view, before ++ [.effect (.act a)] <+: log →
      a.message?.bind Message.ledView? = some view →
      before.getLast? = some (entering view) ∧ (s₀.replay before).Leads config view := by
  obtain ⟨v₀, a, hv₀, path, -⟩ := history_path h
  have hemits := emitsAll_of_history h
  refine ⟨(ledInOrder_of_path hv₀ path hemits).ascending, fun before a view hbefore hview => ?_⟩
  obtain ⟨last, hlast, hemitted⟩ := hemits before _ hbefore
  obtain ⟨rfl, hleads⟩ := hemitted.of_ledView? hview
  exact ⟨hlast _ rfl, hleads⟩

set_option maxRecDepth 100000 in
theorem checks_ledViews : Replica.checks Sample.crypto (Sample.configuration Sample.leader)
    Sample.tree 20 (fun _ _ => true) Sample.firstThreeViews
    (fun log _ => ledViews log == [1, 2, 3]) = true := by
  decide +kernel

theorem leads_once_in_three_views : ∃ log,
    History Sample.crypto (Sample.configuration Sample.leader) (· = Sample.app) Sample.tree log ∧
    ledViews log = [1, 2, 3] ∧ (ledViews log).Pairwise (· < ·) := by
  obtain ⟨log, r, history, -, hviews⟩ :=
    exists_history_of_checks Sample.app_firstThreeViews checks_ledViews
  exact ⟨log, history, eq_of_beq hviews, (leads_once history).1⟩

end Protocol
end HotStuffRs
