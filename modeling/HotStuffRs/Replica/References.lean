import HotStuffRs.BlockTree.References
import HotStuffRs.Replica.AppendOnly
import HotStuffRs.Replica.Repropose

/-
References into the tree of a replica.

The lock and the highest PC are about blocks that `safe_pc` has found, but a commit may take
a block away that was inserted last, or that has the highest PC.
-/

namespace HotStuffRs

open Kv Lts

namespace Protocol

open BlockTree

variable {cr : Crypto} {config : Configuration} {apps : App → Prop} {s₀ : BlockTree}

theorem noDangling_note {s : BlockTree} (wf : s.WellFormed) (h : s.NoDangling) {v : Var} {x : v.Val}
    (hv : IsNote v) : NoDangling (s.write [.set v x]) := by
  refine h.congr wf (wf.congr fun _ _ => block_note hv) (fun b => block_note hv rfl)
    (write_note hv ?_) (write_note hv ?_) (write_note hv ?_) (write_note hv ?_)
    fun height => write_note hv ?_ <;> simp [IsNote]

/-- Nothing dangles, nor does the justify that is acted upon next. -/
structure Referring (a : State) : Prop where
  wf : a.tree.WellFormed
  locked : (a.tree .lockedPc).isSome = true
  noDangling : a.tree.NoDangling
  inserted : ∀ block phase, a.stage = .inserted block phase → a.tree.Present block.justify.block

namespace Referring

variable {a b : State} {e : Event}

theorem update {s : BlockTree} {v : ViewNumber} {st st' : Stage} {justify : PhaseCertificate}
    {fuel : Nat} {wb : WriteBatch} {updates : Option ValidatorSetUpdates} (h : Referring ⟨s, v, st⟩)
    (hlocked : (s.write wb .lockedPc).isSome = true) (hjustify : s.Present justify.block)
    (hst : ∀ block phase, st' ≠ .inserted block phase) (hspares : s.Spares justify)
    (hupdate : s.updateBatch fuel justify = .ok (wb, updates)) : Referring ⟨s.write wb, v, st'⟩ where
  wf := h.wf.update hupdate
  locked := hlocked
  noDangling := h.noDangling.update h.wf h.locked hjustify hspares hupdate
  inserted block phase hinserted := (hst block phase hinserted).elim

theorem note {s : BlockTree} {v v' : ViewNumber} {st st' : Stage} {var : Var} {x : var.Val}
    (h : Referring ⟨s, v, st⟩) (hlocked : (s.write [.set var x] .lockedPc).isSome = true)
    (hst : ∀ block phase, st' ≠ .inserted block phase) (hvar : IsNote var) :
    Referring ⟨s.write [.set var x], v', st'⟩ where
  wf := h.wf.congr fun _ _ => block_note hvar
  locked := hlocked
  noDangling := noDangling_note h.wf h.noDangling hvar
  inserted block phase hinserted := (hst block phase hinserted).elim

theorem step (h : Referring a) (hstep : Step cr config apps a e b)
    (hfresh : ∀ block appStateUpdates validatorSetUpdates, e = .effect (.write
      (a.tree.insertBatch block appStateUpdates validatorSetUpdates)) → a.tree.Fresh block)
    (hspares : ∀ justify fuel wb updates, e = .effect (.write wb) →
      a.tree.updateBatch fuel justify = .ok (wb, updates) → a.tree.Spares justify) :
    Referring b := by
  have hlocked : (b.tree .lockedPc).isSome = true := (hstep.treeStep.lockKept h.locked).1
  cases hstep with
  | act => exact h
  | @insert s v st block appStateUpdates validatorSetUpdates app _ _ hsafe =>
    have hblock : s.Fresh block := hfresh block appStateUpdates validatorSetUpdates rfl
    obtain ⟨hpc, -⟩ := safePc_of_safeBlock hsafe
    have wf' : (s.insert block appStateUpdates validatorSetUpdates).WellFormed :=
      h.wf.insert_of_fresh hblock hsafe
    refine ⟨wf', hlocked, h.noDangling.insert h.wf wf', fun block' phase hst => ?_⟩
    cases hst
    exact (present_of_safePc hpc).insert h.wf wf'
  | updateInserted hupdate =>
    exact h.update hlocked (h.inserted _ _ rfl) nofun (hspares _ _ _ _ rfl hupdate) hupdate
  | nudge _ _ hsafe _ hupdate =>
    have hjustify := present_of_safePc (safePc_of_safeNudge hsafe)
    exact h.update hlocked hjustify nofun (hspares _ _ _ _ rfl hupdate) hupdate
  | accept _ _ hsafe hupdate =>
    have hjustify := present_of_safePc hsafe
    exact h.update hlocked hjustify nofun (hspares _ _ _ _ rfl hupdate) hupdate
  | vote => exact ⟨h.wf, h.locked, h.noDangling, nofun⟩
  | record => exact h.note hlocked nofun (.inr (.inr rfl))
  | setHighestTc => exact h.note hlocked nofun (.inr (.inl rfl))
  | enterView => exact h.note hlocked nofun (.inl rfl)
  | crash => exact ⟨h.wf, h.locked, h.noDangling, nofun⟩

theorem initial {appState : AppStateUpdates} {vss : ValidatorSetState} {v : ViewNumber} :
    Referring ⟨BlockTree.initial appState vss, v, .idle⟩ where
  wf := wellFormed_initial
  locked := congrArg Option.isSome initial_lockedPc
  noDangling := noDangling_initial
  inserted := nofun

theorem of_path {log : List Event} (path : Path (Step cr config apps) a log b)
    (h : Referring a) (hfresh : Inserted a.tree (fun s block _ => s.Fresh block) log)
    (hspares : ∀ s justify, ActsUpon a.tree log s justify → s.Spares justify) : Referring b := by
  induction path with
  | nil => exact h
  | @snoc log c e d path last ih =>
    have hprefix : log <+: log ++ [e] := List.prefix_append ..
    have htree : c.tree = a.tree.replay log := path_tree path
    have hc := ih (hfresh.of_prefix hprefix) fun s justify hacts =>
      hspares s justify (hacts.mono hprefix)
    refine hc.step last (fun block appStateUpdates validatorSetUpdates he => ?_)
      fun justify fuel wb updates he hupdate => ?_
    · rw [htree] at he ⊢
      subst he
      exact hfresh log block appStateUpdates validatorSetUpdates List.prefix_rfl
    · subst he
      exact hspares c.tree justify ⟨log, fuel, wb, updates, List.prefix_rfl, htree, hupdate⟩

end Referring

theorem wellFormed_of_treePath {s t : BlockTree} {log : List Event}
    (path : Path (TreeStep cr config apps) s log t) (wf : s.WellFormed)
    (hfresh : Inserted s (fun s block _ => s.Fresh block) log) : t.WellFormed := by
  refine treePath_invariant path hfresh wf ?_ ?_ ?_
  · exact fun wf _ hsafe _ _ hblock => wf.insert_of_fresh hblock hsafe
  · exact fun wf hupdate => wf.update hupdate
  · exact fun wf hv => wf.congr fun _ _ => block_note hv

/-- In every history, what the variables of the tree name is there at all times exactly if no
certificate that is acted upon prunes the newest block, the block of a highest PC that stays,
or a block that stays under its height. -/
theorem references_never_dangle_iff {appState : AppStateUpdates} {vss : ValidatorSetState}
    {log : List Event} (h : History cr config apps (initial appState vss) log)
    (hfresh : Inserted (initial appState vss) (fun s block _ => s.Fresh block) log) :
    (∀ log₁, log₁ <+: log → ((initial appState vss).replay log₁).NoDangling) ↔
      ∀ s justify, ActsUpon (initial appState vss) log s justify → s.Spares justify := by
  obtain ⟨v₀, b, -, path, -⟩ := history_path h
  constructor
  · rintro hlog s justify ⟨before, fuel, wb, updates, hbefore, rfl, hupdate⟩
    have hprefix : before <+: log := (List.prefix_append ..).trans hbefore
    have hafter := hlog _ hbefore
    rw [replay_snoc, perform_write] at hafter
    have path₁ := treePath_of_prefix h hprefix
    have wf := wellFormed_of_treePath path₁ wellFormed_initial (hfresh.of_prefix hprefix)
    exact hafter.spares wf hupdate
  · intro hspares log₁ hlog₁
    obtain ⟨rest, rfl⟩ := hlog₁
    obtain ⟨c, path₁, -⟩ := Path.append_iff.mp path
    have hc := Referring.initial.of_path path₁ (hfresh.of_prefix (List.prefix_append ..))
      fun s justify hacts => hspares s justify (hacts.mono (List.prefix_append ..))
    rw [← path_tree path₁]
    exact hc.noDangling

/-! ## Two blocks committed with no fork beside them -/

/-- Whether a batch deletes no block. -/
def deletesNoBlock (_ : BlockTree) (wb : WriteBatch) : Bool :=
  wb.all fun
    | .delete (.blockJustify _) => false
    | _ => true

theorem spares_of_checkLog {log : List Event}
    (hwf : ∀ log₁, log₁ <+: log → (s₀.replay log₁).WellFormed)
    (h : checkLog deletesNoBlock s₀ log = true) :
    ∀ s justify, ActsUpon s₀ log s justify → s.Spares justify := by
  rintro s justify ⟨before, fuel, wb, updates, hlog, rfl, hupdate⟩
  have hchecked : deletesNoBlock (s₀.replay before) wb = true := check_of_checkLog h hlog
  have wf := hwf before ((List.prefix_append ..).trans hlog)
  generalize s₀.replay before = s at hupdate hchecked wf
  have hkept : ∀ us b, s.ToCommit justify us → ¬Commits.Prunes s us b := by
    intro us b hus hpruned
    have hstored : Stored (s.write wb) b := by
      refine Store.isSome_write s hpruned.stored fun ho => ?_
      have hnot := List.all_eq_true.mp hchecked _ ho
      cases hnot
    have hpresent := (wf.update hupdate).present_of_stored hstored
    exact ((present_update wf hupdate).mp hpresent).2 us hus hpruned
  exact ⟨fun us hus b _ => hkept us b hus, fun us hus pc _ _ => hkept us pc.block hus,
    fun us hus _ b _ _ => hkept us b hus⟩

set_option maxRecDepth 100000 in
theorem checks_firstFiveViews_deletesNoBlock : Replica.checks Sample.crypto
    (Sample.configuration 3) Sample.tree 20 (fun _ _ => true) Sample.firstFiveViews (fun log _ =>
      checkLog insertsFresh Sample.tree log && checkLog deletesNoBlock Sample.tree log &&
      committedBlocks log == [Sample.block₀.hash, Sample.block₁.hash]) = true := by
  decide +kernel

theorem references_never_dangle_five_views : ∃ log,
    History Sample.crypto (Sample.configuration 3) (· = Sample.app) Sample.tree log ∧
    committedBlocks log = [Sample.block₀.hash, Sample.block₁.hash] ∧
    ∀ log₁, log₁ <+: log → (Sample.tree.replay log₁).NoDangling := by
  obtain ⟨log, r, history, -, hlog⟩ :=
    exists_history_of_checks app_firstFiveViews checks_firstFiveViews_deletesNoBlock
  simp only [Bool.and_eq_true, beq_iff_eq] at hlog
  obtain ⟨⟨hinserted, hdeletes⟩, hblocks⟩ := hlog
  have hfresh := fresh_of_checkLog hinserted
  refine ⟨log, history, hblocks, (references_never_dangle_iff history hfresh).mpr ?_⟩
  refine spares_of_checkLog (fun log₁ hlog₁ => ?_) hdeletes
  have path := treePath_of_prefix history hlog₁
  exact wellFormed_of_treePath path wellFormed_initial (hfresh.of_prefix hlog₁)

end Protocol

/-! ## A network with a fork

Validator 1 leads view 4, and validator 2, which runs this code, the three views before.  A
replica that follows, 3, runs this code, too, and gets the block of view 1, but not the nudges
for it.  In view 4 validator 1 proposes a fork to it, and then shows it that the block of view
1 is to be committed. -/

namespace Sample

def follower : VerifyingKey := 3

/-- The votes of validator 2 for `block₀`. -/
def phases : List (ViewNumber × Phase) := [(1, .prepare), (2, .precommit), (3, .commit)]

/-- Validator 2 signs these votes and one to leave view 0 only, and the follower nothing. -/
def phasedCrypto : Crypto := unforgeable fun key bs =>
  key == 1 || key == leader && (bs == timeoutVoteBytes 7 0 ||
    phases.any fun (view, phase) => bs == phaseVoteBytes 7 view block₀.hash phase)

def phasedVote (view : ViewNumber) (phase : Phase) : PhaseVote :=
  PhaseVote.new phasedCrypto leader 7 view block₀.hash phase

def leaveFirst : TimeoutVote := ⟨7, 0, phasedCrypto.sign leader (timeoutVoteBytes 7 0), none⟩

/-- What is received from `origin` once view 0 has timed out. -/
def late (origin : VerifyingKey) (message : ProgressMessage) : Input :=
  raising (input origin message (3 * 10 ^ 9))

def lateAdvance (certificate : ProgressCertificate) : Input :=
  late 1 (.pacemaker (.advanceView ⟨certificate⟩))

def phased (view : ViewNumber) (phase : Phase) : PhaseCertificate := certify view block₀.hash phase

def phasedProposal : ProgressMessage := .hotStuff (.proposal ⟨7, 1, block₀⟩)

/-- Validator 2 proposes `block₀`, and makes a Prepare, a Precommit and a Commit PC for it. -/
def leaderInputs : List Input :=
  [{ lateAdvance (.timeoutCertificate timeout) with message := none },
   lateAdvance (.timeoutCertificate timeout), late leader phasedProposal,
   late leader (.hotStuff (.phaseVote (phasedVote 1 .prepare))),
   lateAdvance (.phaseCertificate (phased 1 .prepare)),
   late leader (.hotStuff (.nudge ⟨7, 2, phased 1 .prepare⟩)),
   late leader (.hotStuff (.phaseVote (phasedVote 2 .precommit))),
   lateAdvance (.phaseCertificate (phased 2 .precommit)),
   late leader (.hotStuff (.nudge ⟨7, 3, phased 2 .precommit⟩))]

def followerInputs : List Input :=
  [lateAdvance (.timeoutCertificate timeout), late leader phasedProposal,
   lateAdvance (.phaseCertificate (phased 3 .commit)),
   late 1 (.hotStuff (.proposal ⟨7, 4, rival⟩)),
   late 1 (.hotStuff (.newView ⟨7, 4, phased 3 .commit⟩))]

end Sample

namespace Protocol

open BlockTree

/-- Whether every validator set that is written passes a check. -/
def writesSets (check : ValidatorSet → Bool) (log : List Event) : Bool :=
  log.all fun
    | .effect (.write wb) =>
      wb.all fun
        | .set .committedValidatorSet vs | .set .previousValidatorSet vs => check vs
        | _ => true
    | _ => true

theorem held_of_writesSets {check : ValidatorSet → Bool} {log : List Event}
    (h : writesSets check log = true)
    (hs₀ : ∀ vs, s₀ .committedValidatorSet = some vs ∨ s₀ .previousValidatorSet = some vs →
      check vs = true) {vs : ValidatorSet} (hvs : Held s₀ log vs) : check vs = true := by
  obtain ⟨before, hbefore, hheld⟩ := hvs
  have hwritten : ∀ wb, .effect (.write wb) ∈ before → ∀ o ∈ wb,
      o = .set .committedValidatorSet vs ∨ o = .set .previousValidatorSet vs → check vs = true := by
    intro wb hwb o ho hset
    have hall := List.all_eq_true.mp (List.all_eq_true.mp h _ (hbefore.subset hwb)) o ho
    rcases hset with rfl | rfl
    · exact hall
    · exact hall
  rcases hheld with hheld | hheld
  · rcases replay_eq_some hheld with hvs | ⟨wb, hwb, hset⟩
    · exact hs₀ vs (.inl hvs)
    · exact hwritten wb hwb _ hset (.inl rfl)
  · rcases replay_eq_some hheld with hvs | ⟨wb, hwb, hset⟩
    · exact hs₀ vs (.inr hvs)
    · exact hwritten wb hwb _ hset (.inr rfl)

/-- Whether a validator set is the first one, or the one that `block₀` leads to. -/
def heldByTwo (vs : ValidatorSet) : Bool :=
  vs == Sample.validators || vs == Sample.validators.applyUpdates Sample.raisePower

/-- Whether an input comes from validator 1, or from validator 2, which sends it. -/
def hears (leaderLog : List Event) (input : Input) : Bool :=
  input.message.all fun (origin, msg) =>
    origin == 1 || origin == Sample.leader && sends leaderLog msg

/-- Whether validator 2 has sent what it gets back, and what it is taken to sign. -/
def votesInPhases (log : List Event) (_ : Replica) : Bool :=
  Sample.leaderInputs.all (hears log) &&
  sends log Sample.phasedProposal &&
  (Sample.phases.all fun (view, phase) =>
    sends log (.hotStuff (.phaseVote (Sample.phasedVote view phase)))) &&
  sends log (.pacemaker (.timeoutVote Sample.leaveFirst)) && writesSets heldByTwo log

/-- Whether the newest block is the fork, which is not in the tree. -/
def dangles (log : List Event) (r : Replica) : Bool :=
  r.tree .newestBlock == some Sample.rival.hash && !r.tree.kv.contains Sample.rival.hash &&
    writesSets heldByTwo log

set_option maxRecDepth 100000 in
theorem checks_leaderInputs : Replica.checks Sample.phasedCrypto (Sample.configuration Sample.leader)
    Sample.tree 30 (fun _ _ => true) Sample.leaderInputs votesInPhases = true := by
  decide +kernel

set_option maxRecDepth 100000 in
theorem checks_followerInputs : Replica.checks Sample.phasedCrypto
    (Sample.configuration Sample.follower) Sample.tree 30 (fun _ _ => true) Sample.followerInputs
    dangles = true := by
  decide +kernel

theorem app_leaderInputs : ∀ input ∈ Sample.leaderInputs, input.app = Sample.raisingApp := by
  simp [Sample.leaderInputs, Sample.lateAdvance, Sample.late, Sample.raising]

theorem app_followerInputs : ∀ input ∈ Sample.followerInputs, input.app = Sample.raisingApp := by
  simp [Sample.followerInputs, Sample.lateAdvance, Sample.late, Sample.raising]

/-- What verifies in the name of validator 2 is a vote that it has sent. -/
theorem unforgeable_leader {log : List Event}
    (hvotes : ∀ vote ∈ Sample.phases, sends log
      (.hotStuff (.phaseVote (Sample.phasedVote vote.1 vote.2))) = true)
    (hleaves : sends log (.pacemaker (.timeoutVote Sample.leaveFirst)) = true) :
    Unforgeable Sample.phasedCrypto (fun v => Signs Sample.phasedCrypto (Sample.configuration v)
      Sample.tree log) Sample.leader := by
  intro message signature h
  have hsigned := (Bool.and_eq_true_iff.mp h).1
  simp only [Bool.or_eq_true, Bool.and_eq_true, beq_iff_eq, List.any_eq_true] at hsigned
  rcases hsigned with hother | ⟨-, rfl | ⟨vote, hvote, rfl⟩⟩
  · exact absurd hother (by decide)
  · exact ⟨_, _, sends_of_sends hleaves, rfl, rfl⟩
  · exact ⟨_, _, sends_of_sends (hvotes vote hvote), rfl, rfl⟩

theorem unforgeable_follower {signed : VerifyingKey → List Byte → Prop} :
    Unforgeable Sample.phasedCrypto signed Sample.follower := by
  intro message signature h
  have hsigned : Sample.phasedCrypto.verify Sample.follower message signature = false := rfl
  rw [hsigned] at h
  cases h

theorem heldByTwo_initial (vs : ValidatorSet) (h : Sample.tree .committedValidatorSet = some vs ∨
    Sample.tree .previousValidatorSet = some vs) : heldByTwo vs = true := by
  have hcommitted : Sample.tree .committedValidatorSet = some Sample.validators := rfl
  have hprevious : Sample.tree .previousValidatorSet = some Sample.validators := rfl
  have hvs : Sample.validators = vs := by
    rcases h with h | h
    · exact Option.some.inj (hcommitted.symm.trans h)
    · exact Option.some.inj (hprevious.symm.trans h)
  simp [heldByTwo, hvs]

/-- Validator 1 has less than a third of the power before and after `block₀`. -/
theorem power_of_heldByTwo {vs : ValidatorSet} (h : heldByTwo vs = true) :
    3 * vs.powerOf (vs.members \ {Sample.leader, Sample.follower}) < vs.totalPower := by
  simp only [heldByTwo, Bool.or_eq_true, beq_iff_eq] at h
  rcases h with rfl | rfl
  · decide +kernel
  · decide +kernel

/-- The logs of validator 2 and of the follower. -/
def forkLogs (leaderLog followerLog : List Event) (v : VerifyingKey) : List Event :=
  if v = Sample.leader then leaderLog else followerLog

/-- What is received from a replica of the network is sent by it. -/
def ReceivesSent (log : VerifyingKey → List Event) : Condition := fun _ _ input _ =>
  ∀ origin ∈ ({Sample.leader, Sample.follower} : Finset VerifyingKey), ∀ msg,
    input.message = some (origin, msg) →
      Sends Sample.phasedCrypto (Sample.configuration origin) Sample.tree (log origin) msg

theorem receivesSent_of_hears {leaderLog : List Event} {input : Input}
    (h : hears leaderLog input = true) (followerLog : List Event) {r : Replica} {fuel : Nat}
    {effects : List Replica.Effect} :
    ReceivesSent (forkLogs leaderLog followerLog) r fuel input effects := by
  intro origin horigin msg hmsg
  rw [hears, hmsg] at h
  simp only [Option.all_some, Bool.or_eq_true, Bool.and_eq_true, beq_iff_eq] at h
  rcases h with rfl | ⟨rfl, hsent⟩
  · exact absurd horigin (by decide)
  · exact sends_of_sends hsent

theorem hears_followerInputs {leaderLog : List Event}
    (hproposal : sends leaderLog Sample.phasedProposal = true) :
    ∀ input ∈ Sample.followerInputs, hears leaderLog input = true := by
  intro input hinput
  simp only [Sample.followerInputs, List.mem_cons, List.not_mem_nil, or_false] at hinput
  rcases hinput with rfl | rfl | rfl | rfl | rfl
  · rfl
  · have hhears : hears leaderLog (Sample.late Sample.leader Sample.phasedProposal) =
        sends leaderLog Sample.phasedProposal := rfl
    rw [hhears, hproposal]
  · rfl
  · rfl
  · rfl

theorem exists_network_fork : ∃ leaderLog followerLog,
    Network Sample.phasedCrypto (· = Sample.raisingApp) Sample.tree
      {Sample.leader, Sample.follower} Sample.configuration (forkLogs leaderLog followerLog) ∧
    Sample.tree.replay followerLog .newestBlock = some Sample.rival.hash ∧
    (Sample.tree.replay followerLog).kv.contains Sample.rival.hash = false := by
  obtain ⟨leaderLog, r, run, hleader⟩ := @exists_runUnder_of_checks_log _ _ (· = Sample.raisingApp) _
    (fun log r fuel input effects =>
      ∀ followerLog, ReceivesSent (forkLogs log followerLog) r fuel input effects) _ _ _ _
    app_leaderInputs (fun log r' hvotes _ input hinput _ _ followerLog => by
      simp only [votesInPhases, Bool.and_eq_true, List.all_eq_true] at hvotes
      exact receivesSent_of_hears (hvotes.1.1.1.1 input hinput) followerLog) checks_leaderInputs
  simp only [votesInPhases, Bool.and_eq_true, List.all_eq_true] at hleader
  obtain ⟨⟨⟨⟨-, hproposal⟩, hvotes⟩, hleaves⟩, hleaderSets⟩ := hleader
  obtain ⟨followerLog, r', run', hfollower⟩ := @exists_runUnder_of_checks_log _ _
    (· = Sample.raisingApp) _ (fun log => ReceivesSent (forkLogs leaderLog log)) _ _ _ _
    app_followerInputs (fun log _ _ _ input hinput _ _ =>
      receivesSent_of_hears (hears_followerInputs hproposal input hinput) log) checks_followerInputs
  simp only [dangles, Bool.and_eq_true, beq_iff_eq, Bool.not_eq_true'] at hfollower
  obtain ⟨⟨hnewest, hgone⟩, hfollowerSets⟩ := hfollower
  rw [run'.tree_eq] at hnewest hgone
  have hcases : ∀ v ∈ ({Sample.leader, Sample.follower} : Finset VerifyingKey),
      v = Sample.leader ∨ v = Sample.follower := by simp
  have hnothing : ∀ {log : VerifyingKey → List Event} {r : Replica} (fuel : Nat) (input : Input),
      input.message = none → ReceivesSent log r fuel input [] := by
    intro log r fuel input hnone origin _ msg hmsg
    rw [hnone] at hmsg
    cases hmsg
  refine ⟨leaderLog, followerLog, ⟨fun _ _ => rfl, fun _ _ _ _ => rfl, fun v hv => ?_,
    fun v hv => ?_, fun v hv vs hvs => ?_⟩, hnewest, hgone⟩
  · rcases hcases v hv with rfl | rfl
    · exact (run.mono fun _ _ _ _ h => h followerLog).history
        (rfl : Sample.raisingApp = Sample.raisingApp) hnothing
    · exact run'.history (rfl : Sample.raisingApp = Sample.raisingApp) hnothing
  · rcases hcases v hv with rfl | rfl
    · exact unforgeable_leader hvotes hleaves
    · exact unforgeable_follower
  · refine power_of_heldByTwo ?_
    rcases hcases v hv with rfl | rfl
    · exact held_of_writesSets hleaderSets heldByTwo_initial hvs
    · exact held_of_writesSets hfollowerSets heldByTwo_initial hvs

/-- The newest block of a follower may be pruned, though less than a third of the power is not
honest. -/
theorem newest_block_dangles : ¬∀ (cr : Crypto) (apps : App → Prop) (appState : AppStateUpdates)
    (vss : ValidatorSetState) (honest : Finset VerifyingKey)
    (config : VerifyingKey → Configuration) (log : VerifyingKey → List Event),
    Network cr apps (initial appState vss) honest config log →
    ∀ v ∈ honest, ((initial appState vss).replay (log v)).NoDangling := by
  intro h
  obtain ⟨leaderLog, followerLog, network, hnewest, hgone⟩ := exists_network_fork
  have hfollower : (Sample.tree.replay followerLog).NoDangling :=
    h _ _ _ _ _ _ _ network Sample.follower (by simp)
  rcases hfollower.newest _ hnewest with hzero | hcontains
  · revert hzero
    decide +kernel
  · rw [hgone] at hcontains
    cases hcontains

end Protocol
end HotStuffRs
