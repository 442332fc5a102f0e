import HotStuffRs.Replica.Tree

/-
Phase votes.

A replica sends its vote before it records that it has voted in the view.  A crash in
between is harmless if the replica starts again in a later view, which it does unless it
has made no progress since it last started.
-/

namespace HotStuffRs

open Kv Lts

/-- The phase vote that an event sends, if it does. -/
def Event.phaseVote? : Event → Option PhaseVote
  | .effect (.act a) => a.phaseVote?
  | _ => none

/-- The phase votes that a replica has sent, in order. -/
def phaseVotes (log : List Event) : List PhaseVote := log.filterMap Event.phaseVote?

theorem phaseVotes_snoc_of_none {log : List Event} {e : Event} (he : e.phaseVote? = none) :
    phaseVotes (log ++ [e]) = phaseVotes log := by
  simp [phaseVotes, he]

theorem phaseVotes_snoc {log : List Event} {e : Event} {vote : PhaseVote}
    (he : e.phaseVote? = some vote) : phaseVotes (log ++ [e]) = phaseVotes log ++ [vote] := by
  simp [phaseVotes, he]

/-! ## Progress -/

/-- The view that comes after a highest view with progress. -/
def viewAfter (progress : ViewNumber) : Nat := if progress = 0 then 0 else progress.val + 1

theorem le_viewAfter (progress : ViewNumber) : progress.val ≤ viewAfter progress := by
  unfold viewAfter
  split
  · rename_i hzero
    exact le_of_eq (congrArg Fin.val hzero)
  · exact Nat.le_succ _

theorem viewAfter_mono {progress progress' : ViewNumber} (h : progress ≤ progress') :
    viewAfter progress ≤ viewAfter progress' := by
  unfold viewAfter
  split
  · exact Nat.zero_le _
  · rename_i hne
    have hne' : progress' ≠ 0 := by
      rintro rfl
      exact hne (Fin.le_zero_iff.mp h)
    rw [if_neg hne']
    exact Nat.succ_le_succ h

theorem initView_eq_ok {s : BlockTree} {v : ViewNumber} : Algorithm.initView s = .ok v ↔
    ∃ progress, s.kv.highestViewWithProgress = .ok progress ∧ v.val = viewAfter progress := by
  simp only [Algorithm.initView, Result.bind_eq_ok]
  refine exists_congr fun progress => and_congr_right fun _ => ?_
  unfold viewAfter
  split
  · simp only [Result.pure_eq, Except.ok.injEq, Fin.ext_iff]
    exact eq_comm
  · rw [U64.add_eq_ok]
    exact eq_comm

namespace BlockTree

/-- The view of the highest timeout certificate. -/
def tcView (s : BlockTree) : ViewNumber :=
  ((s .highestTc).map TimeoutCertificate.view).getD ViewNumber.init

theorem kv_highestViewWithProgress_eq_ok {s : BlockTree} {progress : ViewNumber} :
    s.kv.highestViewWithProgress = .ok progress ↔
      ∃ entered pc, s .highestViewEntered = some entered ∧ s .highestPc = some pc ∧
        progress = max entered (max pc.view s.tcView) := by
  simp only [KVGet.highestViewWithProgress, Result.bind_eq_ok, kv_highestViewEntered_eq_ok,
    kv_highestPc_eq_ok, kv_highestTc, Except.ok.injEq, Result.pure_eq, tcView]
  constructor
  · rintro ⟨entered, hentered, pc, hpc, tc, rfl, rfl⟩
    exact ⟨entered, pc, hentered, hpc, rfl⟩
  · rintro ⟨entered, pc, hentered, hpc, rfl⟩
    exact ⟨entered, hentered, pc, hpc, _, rfl, rfl⟩

/-- None of the variables that progress is read from goes back. -/
structure ProgressKept (s s' : BlockTree) : Prop where
  entered : ∀ v ∈ s .highestViewEntered, ∃ v' ∈ s' .highestViewEntered, v ≤ v'
  pc : ∀ pc ∈ s .highestPc, ∃ pc' ∈ s' .highestPc, pc.view ≤ pc'.view
  tc : s.tcView ≤ s'.tcView

theorem ProgressKept.of_eq {s s' : BlockTree}
    (hentered : s' .highestViewEntered = s .highestViewEntered)
    (hpc : s' .highestPc = s .highestPc) (htc : s' .highestTc = s .highestTc) :
    ProgressKept s s' where
  entered v hv := ⟨v, hentered ▸ hv, le_rfl⟩
  pc pc h := ⟨pc, hpc ▸ h, le_rfl⟩
  tc := by rw [tcView, tcView, htc]

theorem ProgressKept.exists_le {s s' : BlockTree} (h : ProgressKept s s') {progress : ViewNumber}
    (hprogress : s.kv.highestViewWithProgress = .ok progress) :
    ∃ progress', s'.kv.highestViewWithProgress = .ok progress' ∧ progress ≤ progress' := by
  obtain ⟨entered, pc, hentered, hpc, rfl⟩ := kv_highestViewWithProgress_eq_ok.mp hprogress
  obtain ⟨entered', hentered', hle⟩ := h.entered entered hentered
  obtain ⟨pc', hpc', hle'⟩ := h.pc pc hpc
  exact ⟨_, kv_highestViewWithProgress_eq_ok.mpr ⟨entered', pc', hentered', hpc', rfl⟩,
    max_le_max hle (max_le_max hle' h.tc)⟩

theorem progressKept_insert {s : BlockTree} {block : Block}
    {appStateUpdates : Option AppStateUpdates} {validatorSetUpdates : Option ValidatorSetUpdates} :
    ProgressKept s (s.insert block appStateUpdates validatorSetUpdates) :=
  .of_eq (insert_of_block?_eq_none rfl (by simp)) (insert_of_block?_eq_none rfl (by simp))
    (insert_of_block?_eq_none rfl (by simp))

theorem progressKept_update {s : BlockTree} {justify : PhaseCertificate} {fuel : Nat}
    {wb : WriteBatch} {updates : Option ValidatorSetUpdates}
    (h : s.updateBatch fuel justify = .ok (wb, updates)) : ProgressKept s (s.write wb) where
  entered v hv := by
    rw [write_update_of_isProgress h rfl (by simp) (by simp)]
    exact ⟨v, hv, le_rfl⟩
  pc pc hpc := by
    obtain ⟨highest, hhighest, hhighest'⟩ := highestPc_update h
    obtain rfl := Option.some.inj (hpc.symm.trans hhighest)
    refine ⟨_, hhighest', ?_⟩
    split
    · rename_i hlt
      exact hlt.le
    · exact le_rfl
  tc := by
    rw [tcView, tcView, write_update_of_isProgress h rfl (by simp) (by simp)]

end BlockTree

namespace Protocol

open BlockTree

variable {cr : Crypto} {config : Configuration} {apps : App → Prop}

/-! ## One vote a view -/

/-- A crash after `log` finds the view of the last vote recorded, or before the view in
which the replica starts again. -/
def CrashesSafely (s₀ : BlockTree) (log : List Event) : Prop :=
  ∀ vote ∈ (phaseVotes log).getLast?,
    (∃ voted, s₀.replay log .highestViewPhaseVoted = some voted ∧ vote.view ≤ voted) ∨
    ∀ v, Algorithm.initView (s₀.replay log) = .ok v → vote.view < v

/-- No later vote has the view of `vote`, be it that the replica has left that view or that
it is recorded. -/
def IsPast (s : BlockTree) (v : ViewNumber) (vote : PhaseVote) : Prop :=
  vote.view < v ∨ ∃ voted, s .highestViewPhaseVoted = some voted ∧ vote.view ≤ voted

/-- What a replica in view `v` knows of the votes that it has sent. -/
structure VotesInOrder (log : List Event) (s : BlockTree) (v : ViewNumber) (st : Stage) : Prop where
  entered : ∀ entered, s .highestViewEntered = some entered → entered ≤ v
  progress : ∃ progress, s.kv.highestViewWithProgress = .ok progress ∧ v.val ≤ viewAfter progress
  past : st ≠ .voted → ∀ vote ∈ phaseVotes log, IsPast s v vote
  voted : st = .voted → ∀ vote ∈ phaseVotes log, vote.view ≤ v
  ascending : (phaseVotes log).Pairwise fun vote vote' => vote.view < vote'.view

namespace VotesInOrder

variable {log : List Event} {e : Event} {s s' : BlockTree} {v v' : ViewNumber} {st st' : Stage}

theorem init {s₀ : BlockTree} (h : Algorithm.initView s₀ = .ok v) :
    VotesInOrder [] s₀ v .idle := by
  obtain ⟨progress, hprogress, hv⟩ := initView_eq_ok.mp h
  obtain ⟨entered, pc, hentered, -, hmax⟩ := kv_highestViewWithProgress_eq_ok.mp hprogress
  refine ⟨fun entered' hentered' => ?_, ⟨_, hprogress, hv.le⟩, by simp [phaseVotes], nofun, .nil⟩
  obtain rfl := Option.some.inj (hentered.symm.trans hentered')
  have hle : entered ≤ progress := hmax ▸ le_max_left _ _
  exact Fin.le_def.mpr ((Fin.le_def.mp hle).trans ((le_viewAfter progress).trans hv.ge))

/-- The replica goes on without a vote, and what is recorded of its votes stays. -/
theorem go (h : VotesInOrder log s v st) (hst : st ≠ .voted) (hst' : st' ≠ .voted)
    (he : e.phaseVote? = none) (hkept : ProgressKept s s')
    (hentered : s' .highestViewEntered = s .highestViewEntered)
    (hvoted : s' .highestViewPhaseVoted = s .highestViewPhaseVoted) :
    VotesInOrder (log ++ [e]) s' v st' := by
  obtain ⟨progress, hprogress, hle⟩ := h.progress
  obtain ⟨progress', hprogress', hle'⟩ := hkept.exists_le hprogress
  refine ⟨fun entered h' => h.entered entered (hentered ▸ h'),
    ⟨progress', hprogress', hle.trans (viewAfter_mono hle')⟩, fun _ => ?_,
    fun hst => (hst' hst).elim, ?_⟩
  · rw [phaseVotes_snoc_of_none he]
    intro vote hvote
    rw [IsPast, hvoted]
    exact h.past hst vote hvote
  · rw [phaseVotes_snoc_of_none he]
    exact h.ascending

theorem update (h : VotesInOrder log s v st) (hst : st ≠ .voted) (hst' : st' ≠ .voted)
    {justify : PhaseCertificate} {fuel : Nat} {wb : WriteBatch}
    {updates : Option ValidatorSetUpdates} (hupdate : s.updateBatch fuel justify = .ok (wb, updates)) :
    VotesInOrder (log ++ [.effect (.write wb)]) (s.write wb) v st' :=
  h.go hst hst' rfl (progressKept_update hupdate)
    (write_update_of_isProgress hupdate rfl (by simp) (by simp))
    (write_update_of_isProgress hupdate rfl (by simp) (by simp))

theorem vote (h : VotesInOrder log s v st) (hst : st ≠ .voted)
    (hfirst : (s .highestViewPhaseVoted).all (· < v) = true) {vote : PhaseVote}
    (he : e.phaseVote? = some vote) (hview : vote.view = v) :
    VotesInOrder (log ++ [e]) s v .voted := by
  -- What is past leaves only earlier views to the votes so far, by the guard.
  have hlt : ∀ vote ∈ phaseVotes log, vote.view < v := by
    intro vote hvote
    rcases h.past hst vote hvote with hlt | ⟨voted, hvoted, hle⟩
    · exact hlt
    · rw [hvoted] at hfirst
      exact hle.trans_lt (of_decide_eq_true hfirst)
  refine ⟨h.entered, h.progress, fun hst => (hst rfl).elim, fun _ => ?_, ?_⟩
  · rw [phaseVotes_snoc he, List.forall_mem_append, List.forall_mem_singleton]
    exact ⟨fun vote hvote => (hlt vote hvote).le, hview.le⟩
  · rw [phaseVotes_snoc he, List.pairwise_append]
    refine ⟨h.ascending, List.pairwise_singleton _ _, fun vote' hvote' => ?_⟩
    rw [List.forall_mem_singleton, hview]
    exact hlt vote' hvote'

theorem record (h : VotesInOrder log s v .voted) :
    VotesInOrder (log ++ [.effect (.write (WriteBatch.setHighestViewPhaseVoted v))])
      (s.write (WriteBatch.setHighestViewPhaseVoted v)) v .idle := by
  have hkept : ∀ v' : Var, v' ≠ .highestViewPhaseVoted →
      s.write (WriteBatch.setHighestViewPhaseVoted v) v' = s v' := fun _ hne => Store.apply_of_ne s hne
  have hwrite : s.write (WriteBatch.setHighestViewPhaseVoted v) .highestViewPhaseVoted = some v :=
    Store.apply_set s .highestViewPhaseVoted v
  obtain ⟨progress, hprogress, hle⟩ := h.progress
  obtain ⟨progress', hprogress', hle'⟩ := (ProgressKept.of_eq (hkept _ (by simp))
    (hkept _ (by simp)) (hkept _ (by simp))).exists_le hprogress
  refine ⟨fun entered h' => h.entered entered ((hkept _ (by simp)).symm.trans h'),
    ⟨progress', hprogress', hle.trans (viewAfter_mono hle')⟩, fun _ => ?_, nofun, ?_⟩
  · rw [phaseVotes_snoc_of_none rfl]
    exact fun vote hvote => .inr ⟨v, hwrite, h.voted rfl vote hvote⟩
  · rw [phaseVotes_snoc_of_none rfl]
    exact h.ascending

theorem setHighestTc (h : VotesInOrder log s v st) (hst : st ≠ .voted) {tc : TimeoutCertificate}
    (hhigher : (s .highestTc).all (fun highest => highest.view < tc.view) = true) :
    VotesInOrder (log ++ [.effect (.write (WriteBatch.setHighestTc tc))])
      (s.write (WriteBatch.setHighestTc tc)) v .idle := by
  have hkept : ∀ v' : Var, v' ≠ .highestTc → s.write (WriteBatch.setHighestTc tc) v' = s v' :=
    fun _ hne => Store.apply_of_ne s hne
  have hwrite : s.write (WriteBatch.setHighestTc tc) .highestTc = some tc :=
    Store.apply_set s .highestTc tc
  refine h.go hst nofun rfl ⟨fun entered hentered => ?_, fun pc hpc => ?_, ?_⟩
    (hkept _ (by simp)) (hkept _ (by simp))
  · exact ⟨entered, (hkept _ (by simp)).trans hentered, le_rfl⟩
  · exact ⟨pc, (hkept _ (by simp)).trans hpc, le_rfl⟩
  · rw [tcView, tcView, hwrite]
    cases htc : s .highestTc with
    | none => exact Fin.zero_le _
    | some highest =>
      rw [htc] at hhigher
      exact (of_decide_eq_true hhigher).le

/-- Entering a view makes progress. -/
theorem enterView (h : VotesInOrder log s v st) (hst : st ≠ .voted) (hv : v < v') :
    VotesInOrder (log ++ [.effect (.write (WriteBatch.setHighestViewEntered v'))])
      (s.write (WriteBatch.setHighestViewEntered v')) v' .idle := by
  have hkept : ∀ v'' : Var, v'' ≠ .highestViewEntered →
      s.write (WriteBatch.setHighestViewEntered v') v'' = s v'' :=
    fun _ hne => Store.apply_of_ne s hne
  have hwrite : s.write (WriteBatch.setHighestViewEntered v') .highestViewEntered = some v' :=
    Store.apply_set s .highestViewEntered v'
  obtain ⟨progress, hprogress, -⟩ := h.progress
  obtain ⟨entered, pc, -, hpc, -⟩ := kv_highestViewWithProgress_eq_ok.mp hprogress
  refine ⟨fun entered' h' => (Option.some.inj (hwrite.symm.trans h')).ge,
    ⟨_, kv_highestViewWithProgress_eq_ok.mpr ⟨v', pc, hwrite, (hkept _ (by simp)).trans hpc, rfl⟩,
      (Fin.le_def.mp (le_max_left _ _)).trans (le_viewAfter _)⟩, fun _ => ?_, nofun, ?_⟩
  · rw [phaseVotes_snoc_of_none rfl]
    intro vote hvote
    rcases h.past hst vote hvote with hlt | ⟨voted, hvoted, hle⟩
    · exact .inl (hlt.trans hv)
    · exact .inr ⟨voted, (hkept _ (by simp)).trans hvoted, hle⟩
  · rw [phaseVotes_snoc_of_none rfl]
    exact h.ascending

/-- What a safe crash says of the last vote goes for the earlier ones, too. -/
theorem crash (h : VotesInOrder log s v st) (hv' : Algorithm.initView s = .ok v')
    (hsafe : ∀ vote ∈ (phaseVotes log).getLast?,
      (∃ voted, s .highestViewPhaseVoted = some voted ∧ vote.view ≤ voted) ∨
      ∀ v, Algorithm.initView s = .ok v → vote.view < v) :
    VotesInOrder (log ++ [.crash]) s v' .idle := by
  have hstart := init hv'
  refine ⟨hstart.entered, hstart.progress, fun _ => ?_, nofun, ?_⟩
  · rw [phaseVotes_snoc_of_none rfl]
    intro vote hvote
    rcases List.eq_nil_or_concat (phaseVotes log) with hnil | ⟨votes, last, hvotes⟩
    · rw [hnil] at hvote
      cases hvote
    · have hascending := h.ascending
      rw [hvotes, List.concat_eq_append, List.pairwise_append] at hascending
      rw [hvotes, List.concat_eq_append] at hvote hsafe
      have hlast := hsafe last (by simp)
      have hle : vote.view ≤ last.view := by
        rcases List.mem_append.mp hvote with hvote | hvote
        · exact (hascending.2.2 vote hvote last List.mem_cons_self).le
        · rw [List.mem_singleton.mp hvote]
      rcases hlast with ⟨voted, hvoted, hle'⟩ | hlt
      · exact .inr ⟨voted, hvoted, hle.trans hle'⟩
      · exact .inl (hle.trans_lt (hlt v' hv'))
  · rw [phaseVotes_snoc_of_none rfl]
    exact h.ascending

theorem step {a b : State} (h : VotesInOrder log a.tree a.view a.stage)
    (hstep : Step cr config apps a e b) {s₀ : BlockTree} (htree : a.tree = s₀.replay log)
    (hsafe : e = .crash → CrashesSafely s₀ log) :
    VotesInOrder (log ++ [e]) b.tree b.view b.stage := by
  have hopen : ∀ {st : Stage}, st.IsOpen → st ≠ .voted := by
    rintro _ hst rfl
    exact hst
  cases hstep with
  | act ha =>
    have hvotes : phaseVotes (log ++ [.effect (.act _)]) = phaseVotes log :=
      phaseVotes_snoc_of_none ha
    exact ⟨h.entered, h.progress, hvotes ▸ h.past, hvotes ▸ h.voted, hvotes ▸ h.ascending⟩
  | insert hst =>
    exact h.go (hopen hst) nofun rfl progressKept_insert
      (insert_of_block?_eq_none rfl (by simp)) (insert_of_block?_eq_none rfl (by simp))
  | updateInserted hupdate => exact h.update nofun (hopen .mayVote) hupdate
  | nudge hst _ _ _ hupdate => exact h.update (hopen hst) (hopen .mayVote) hupdate
  | accept hst _ _ hupdate => exact h.update (hopen hst) (hopen .idle) hupdate
  | vote _ _ hfirst => exact h.vote nofun hfirst rfl rfl
  | record => exact h.record
  | setHighestTc hst hhigher => exact h.setHighestTc (hopen hst) hhigher
  | enterView hst hv => exact h.enterView (hopen hst) hv
  | crash hview =>
    refine h.crash hview ?_
    rw [htree]
    exact hsafe rfl

end VotesInOrder

/-- A replica whose crashes are all safe sends its votes in ascending views. -/
theorem votesInOrder_of_path {s₀ : BlockTree} {v₀ : ViewNumber} {log : List Event} {a : State}
    (hv₀ : Algorithm.initView s₀ = .ok v₀) (path : Path (Step cr config apps) ⟨s₀, v₀, .idle⟩ log a)
    (hsafe : ∀ before, before ++ [.crash] <+: log → CrashesSafely s₀ before) :
    VotesInOrder log a.tree a.view a.stage := by
  induction path with
  | nil => exact .init hv₀
  | @snoc log t e u path last ih =>
    refine (ih fun before hbefore => hsafe before (hbefore.trans (List.prefix_append ..))).step last
      (path_tree path) ?_
    rintro rfl
    exact hsafe log List.prefix_rfl

/-- In every history whose crashes are all safe, no two phase votes of the same view differ
in block or phase. -/
theorem votes_once {s₀ : BlockTree} {log : List Event} (h : History cr config apps s₀ log)
    (hsafe : ∀ before, before ++ [.crash] <+: log → CrashesSafely s₀ before) :
    ∀ vote ∈ phaseVotes log, ∀ vote' ∈ phaseVotes log, vote.view = vote'.view →
      vote.block = vote'.block ∧ vote.phase = vote'.phase := by
  obtain ⟨v₀, a, hv₀, path, -⟩ := history_path h
  have hascending := (votesInOrder_of_path hv₀ path hsafe).ascending
  intro vote hvote vote' hvote' hview
  have hviews : ((phaseVotes log).map PhaseVote.view).Nodup :=
    List.pairwise_map.mpr (hascending.imp fun hlt => hlt.ne)
  rw [List.inj_on_of_nodup_map hviews hvote hvote' hview]
  exact ⟨rfl, rfl⟩

end Protocol

/-! ## Two proposals in the first view

A replica is cut short as it handles the first of two proposals, and gets the second one
after its restart. -/

/-- The effects of an iteration with `input` that a crash cuts short after the first `n` of
them, and those of an iteration with `input'` after the restart. -/
def Replica.aroundCrash (cr : Crypto) (config : Configuration) (s₀ : BlockTree) (fuel : Nat)
    (input : Input) (n : Nat) (input' : Input) :
    Option (List Replica.Effect × List Replica.Effect) :=
  match Replica.start config s₀ 0 with
  | .ok r =>
    let effects := (r.iterated cr fuel input).effects.take n
    match Replica.start config (Store.replay r.tree effects) 0 with
    | .ok r' => some (effects, (r'.iterated cr fuel input').effects)
    | .error _ => none
  | .error _ => none

/-- The events around a crash. -/
def crashBetween (effects effects' : List Replica.Effect) : List Event :=
  effects.map .effect ++ [.crash] ++ effects'.map .effect

variable {cr : Crypto} {config : Configuration} {apps : App → Prop} {s₀ : BlockTree}

theorem history_of_aroundCrash {fuel n : Nat} {input input' : Input}
    {effects effects' : List Replica.Effect} (happ : apps input.app) (happ' : apps input'.app)
    (h : Replica.aroundCrash cr config s₀ fuel input n input' = some (effects, effects')) :
    History cr config apps s₀ (crashBetween effects effects') := by
  unfold Replica.aroundCrash at h
  split at h
  · rename_i r hstart
    dsimp only at h
    split at h
    · rename_i r' hstart'
      obtain ⟨rfl, rfl⟩ := Prod.mk.inj (Option.some.inj h)
      have run := (Run.start hstart).restart happ (List.take_prefix n _) hstart'
      exact ⟨_, r', fuel, input', _, run, happ', List.prefix_rfl, rfl⟩
    · cases h
  · cases h

theorem eq_of_crashBetween {effects effects' : List Replica.Effect} {before : List Event}
    (h : before ++ [.crash] <+: crashBetween effects effects') : before = effects.map .effect := by
  obtain ⟨rest, hrest⟩ := h
  unfold crashBetween at hrest
  induction effects generalizing before with
  | nil =>
    cases before with
    | nil => rfl
    | cons e before =>
      have htail : before ++ [.crash] ++ rest = effects'.map Event.effect := (List.cons.inj hrest).2
      have hmem : Event.crash ∈ effects'.map Event.effect := by
        rw [← htail]
        simp
      simp at hmem
  | cons effect effects ih =>
    cases before with
    | nil => cases (List.cons.inj hrest).1
    | cons e before =>
      obtain ⟨rfl, htail⟩ := List.cons.inj hrest
      rw [ih htail]
      rfl

namespace Sample

/-- Validator `1` leads the first view. -/
def proposeFirst (block : Block) : Input := input 1 (.hotStuff (.proposal ⟨7, 0, block⟩)) 0

def rival : Block := blockOn 0 .genesisPc 104

/-- The vote of the leader of the second view in the first one. -/
def firstVote (block : Block) : PhaseVote := PhaseVote.new crypto leader 7 0 block.hash .generic

theorem view_firstVote (block : Block) : (firstVote block).view = 0 := rfl

theorem block_firstVote (block : Block) : (firstVote block).block = block.hash := rfl

/-- What the two iterations do if the first is cut short after `n` effects. -/
def proposeTwice (n : Nat) : Option (List Replica.Effect × List Replica.Effect) :=
  Replica.aroundCrash crypto (configuration leader) tree 20 (proposeFirst block₀) n
    (proposeFirst rival)

end Sample

namespace Protocol

/-- The first vote is recorded before the crash. -/
def recordsFirst : List Replica.Effect × List Replica.Effect → Bool
  | (effects, effects') =>
    phaseVotes (effects.map .effect) == [Sample.firstVote Sample.block₀] &&
    Store.replay Sample.tree effects .highestViewPhaseVoted == some 0 &&
    phaseVotes (crashBetween effects effects') == [Sample.firstVote Sample.block₀]

/-- The crash comes before that, and a vote for the other block follows. -/
def votesTwice : List Replica.Effect × List Replica.Effect → Bool
  | (effects, effects') => phaseVotes (crashBetween effects effects') ==
      [Sample.firstVote Sample.block₀, Sample.firstVote Sample.rival]

set_option maxRecDepth 100000 in
theorem proposeTwice_recordsFirst : (Sample.proposeTwice 4).any recordsFirst = true := by
  decide +kernel

set_option maxRecDepth 100000 in
theorem proposeTwice_votesTwice : (Sample.proposeTwice 3).any votesTwice = true := by
  decide +kernel

theorem votes_once_over_crash : ∃ effects effects',
    History Sample.crypto (Sample.configuration Sample.leader) (· = Sample.app) Sample.tree
      (crashBetween effects effects') ∧
    Sample.firstVote Sample.block₀ ∈ phaseVotes (crashBetween effects effects') ∧
    ∀ vote ∈ phaseVotes (crashBetween effects effects'), vote.view = 0 →
      Sample.block₀.hash = vote.block ∧ .generic = vote.phase := by
  obtain ⟨⟨effects, effects'⟩, haround, hvotes⟩ :=
    (Option.any_eq_true _ _).mp proposeTwice_recordsFirst
  simp only [recordsFirst, Bool.and_eq_true, beq_iff_eq] at hvotes
  obtain ⟨⟨hfirst, hrecorded⟩, hvotes⟩ := hvotes
  have history : History Sample.crypto (Sample.configuration Sample.leader) (· = Sample.app)
      Sample.tree (crashBetween effects effects') := history_of_aroundCrash rfl rfl haround
  have hsafe : ∀ before, before ++ [.crash] <+: crashBetween effects effects' →
      CrashesSafely Sample.tree before := by
    intro before hbefore
    rw [eq_of_crashBetween hbefore, CrashesSafely, hfirst, BlockTree.replay_effects, hrecorded]
    intro vote hvote
    obtain rfl := Option.some.inj hvote
    exact .inl ⟨0, rfl, le_rfl⟩
  have hmem : Sample.firstVote Sample.block₀ ∈ phaseVotes (crashBetween effects effects') := by
    rw [hvotes]
    exact List.mem_singleton_self _
  exact ⟨effects, effects', history, hmem,
    fun vote hvote hview => votes_once history hsafe _ hmem vote hvote hview.symm⟩

theorem votes_twice_over_crash : ¬∀ (cr : Crypto) (config : Configuration) (apps : App → Prop)
    (s₀ : BlockTree) (log : List Event), History cr config apps s₀ log →
    ∀ vote ∈ phaseVotes log, ∀ vote' ∈ phaseVotes log, vote.view = vote'.view →
      vote.block = vote'.block ∧ vote.phase = vote'.phase := by
  intro h
  obtain ⟨⟨effects, effects'⟩, haround, hvotes⟩ :=
    (Option.any_eq_true _ _).mp proposeTwice_votesTwice
  simp only [votesTwice, beq_iff_eq] at hvotes
  have history : History Sample.crypto (Sample.configuration Sample.leader) (· = Sample.app)
      Sample.tree (crashBetween effects effects') := history_of_aroundCrash rfl rfl haround
  have hsame := h _ _ _ _ _ history
  rw [hvotes] at hsame
  have hblock := (hsame (Sample.firstVote Sample.block₀) List.mem_cons_self
    (Sample.firstVote Sample.rival) (List.mem_cons_of_mem _ List.mem_cons_self)
    ((Sample.view_firstVote _).trans (Sample.view_firstVote _).symm)).1
  rw [Sample.block_firstVote, Sample.block_firstVote] at hblock
  revert hblock
  decide +kernel

end Protocol
end HotStuffRs
