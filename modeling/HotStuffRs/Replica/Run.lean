import HotStuffRs.Replica.BlockSync

namespace HotStuffRs

open Kv Kv.Process Lts

variable {cr : Crypto} {config : Configuration} {apps : App → Prop}

namespace Protocol

/-- What holds of a replica between two iterations: its parts are configured alike, and
its hotstuff part is not ahead of its pacemaker. -/
structure Configured (config : Configuration) (alg : Algorithm) : Prop where
  hotstuff : alg.hotstuff.config = config.hotstuff
  blockSyncClient : alg.blockSyncClient.config = config.blockSyncClient
  view_le : alg.hotstuff.viewInfo.view ≤ alg.pacemaker.viewInfo.view

/-- The protocol is in the view of the replica, and may go on to anything. -/
def Ready (cr : Crypto) (config : Configuration) (apps : App → Prop) (a : State)
    (w : World Algorithm Action Var.Val) : Prop :=
  Configured config w.mem ∧
  ∃ st, st.IsOpen ∧ At cr config apps a w.mem.hotstuff.viewInfo.view st w

variable {a : State} {fuel : Nat} {input : Input} {w : World Algorithm Action Var.Val}

theorem Ready.allowed (h : Ready cr config apps a w) : Allowed cr config apps a w :=
  let ⟨st, _, h⟩ := h.2
  ⟨_, st, h⟩

theorem AllowedUpTo.congr {M N : Type} {w : World M Action Var.Val} {w' : World N Action Var.Val}
    {v : ViewNumber} (h : AllowedUpTo cr config apps a v w) (hbase : w'.base = w.base)
    (heffects : w'.effects = w.effects) : AllowedUpTo cr config apps a v w' :=
  let ⟨v', hv', st, hat⟩ := h
  ⟨v', hv', st, hat.congr hbase heffects⟩

theorem AllowedUpTo.allowed {v : ViewNumber} (h : AllowedUpTo cr config apps a v w) :
    Allowed cr config apps a w :=
  let ⟨v', _, st, hat⟩ := h
  ⟨v', st, hat⟩

/-- `m` keeps the replica ready, and does not take the protocol beyond the view that the
pacemaker was in. -/
def StaysBehind (cr : Crypto) (config : Configuration) (apps : App → Prop) (a : State)
    (m : Algorithm.Handler Unit) (w : World Algorithm Action Var.Val) : Prop :=
  wp m (fun _ w' => Ready cr config apps a w' ∧
      AllowedUpTo cr config apps a w.mem.pacemaker.viewInfo.view w')
    (AllowedUpTo cr config apps a w.mem.pacemaker.viewInfo.view) w

theorem StaysBehind.wp {m : Algorithm.Handler Unit} (h : StaysBehind cr config apps a m w) :
    wp m (fun _ => Ready cr config apps a) (Allowed cr config apps a) w :=
  wp_mono h (fun _ _ hw' => hw'.1) fun _ => AllowedUpTo.allowed

/-- A hotstuff handler that leads from the view of the replica to one that the pacemaker
has reached keeps the replica ready. -/
theorem stays_onHotStuff {h : HotStuff.Handler Unit} (hw : Ready cr config apps a w)
    (hh : ∀ w', HotStuff.Ready cr config apps a w.mem.hotstuff.viewInfo.view w' →
      w'.mem = w.mem.hotstuff → ∃ v ≤ w.mem.pacemaker.viewInfo.view,
        wp h (fun _ => HotStuff.Ready cr config apps a v) (AllowedUpTo cr config apps a v) w') :
    StaysBehind cr config apps a (Algorithm.onHotStuff h) w := by
  obtain ⟨⟨hhotstuff, hclient, hle⟩, st, hst, hat⟩ := hw
  rw [StaysBehind, Algorithm.onHotStuff, wp_zoom]
  obtain ⟨v, hv, hwp⟩ := hh { mem := w.mem.hotstuff, base := w.base, effects := w.effects }
    ⟨hhotstuff, rfl, st, hst, hat.congr rfl rfl⟩ rfl
  refine wp_mono hwp (fun _ w' hw' => ?_) fun w' hw' => (hw'.mono hv).congr rfl rfl
  have hallowed := hw'.allowed.mono hv
  obtain ⟨hconfig, rfl, st', hst', hat'⟩ := hw'
  exact ⟨⟨⟨hconfig, hclient, hv⟩, st', hst', hat'.congr rfl rfl⟩, hallowed.congr rfl rfl⟩

theorem stays_onPacemaker {h : Pacemaker.Handler Unit} (hw : Ready cr config apps a w)
    (hh : ∀ v p, Keeps (Pacemaker.Ready cr config apps a v p) (AllowedUpTo cr config apps a v) h) :
    StaysBehind cr config apps a (Algorithm.onPacemaker h) w := by
  obtain ⟨⟨hhotstuff, hclient, hle⟩, st, hst, hat⟩ := hw
  rw [StaysBehind, Algorithm.onPacemaker, wp_zoom]
  refine wp_mono (hh _ _ { mem := w.mem.pacemaker, base := w.base, effects := w.effects }
    ⟨hle, st, hst, hat.congr rfl rfl⟩) (fun _ w' hw' => ?_)
    fun w' hw' => (hw'.mono hle).congr rfl rfl
  have hallowed := hw'.allowed.mono hle
  obtain ⟨hle', st', hst', hat'⟩ := hw'
  exact ⟨⟨⟨hhotstuff, hclient, hle'⟩, st', hst', hat'.congr rfl rfl⟩, hallowed.congr rfl rfl⟩

theorem stays_onBlockSyncClient {h : BlockSyncClient.Handler Unit}
    (hw : Ready cr config apps a w)
    (hh : ∀ v, Keeps (BlockSyncClient.Ready cr config apps a v) (AllowedUpTo cr config apps a v) h) :
    StaysBehind cr config apps a (Algorithm.onBlockSyncClient h) w := by
  obtain ⟨⟨hhotstuff, hclient, hle⟩, st, hst, hat⟩ := hw
  rw [StaysBehind, Algorithm.onBlockSyncClient, wp_zoom]
  refine wp_mono (hh _ { mem := w.mem.blockSyncClient, base := w.base, effects := w.effects }
    ⟨hclient, st, hst, hat.congr rfl rfl⟩) (fun _ w' hw' => ?_)
    fun w' hw' => (hw'.mono hle).congr rfl rfl
  have hallowed := hw'.allowed.mono hle
  obtain ⟨hclient', st', hst', hat'⟩ := hw'
  exact ⟨⟨⟨hhotstuff, hclient', hle⟩, st', hst', hat'.congr rfl rfl⟩, hallowed.congr rfl rfl⟩

theorem Ready.stays_pure (h : Ready cr config apps a w) :
    StaysBehind cr config apps a (pure ()) w := by
  obtain ⟨st, -, hat⟩ := h.2
  exact ⟨h, hat.allowed.mono h.1.view_le⟩

theorem stays_tick (h : Ready cr config apps a w) :
    StaysBehind cr config apps a (Algorithm.onPacemaker (Pacemaker.tick cr input.now)) w :=
  stays_onPacemaker h fun _ _ => Pacemaker.keeps_tick

theorem stays_followView (h : Ready cr config apps a w) :
    StaysBehind cr config apps a (Algorithm.followView cr fuel input) w := by
  rw [StaysBehind, Algorithm.followView, wp_bind, wp_mem, wp_ite]
  split
  · rename_i houtdated
    refine stays_onHotStuff h fun w' hw' _ => ⟨_, le_rfl, HotStuff.wp_enterView hw' ?_⟩
    exact lt_of_le_of_ne h.1.view_le fun heq => by simp [HotStuff.isViewOutdated, heq] at houtdated
  · exact h.stays_pure

theorem stays_receive (happ : apps input.app) (h : Ready cr config apps a w) :
    StaysBehind cr config apps a (Algorithm.receive cr fuel input) w := by
  rw [StaysBehind, Algorithm.receive, wp_bind, wp_mem]
  cases input.message with
  | none => exact h.stays_pure
  | some message =>
    obtain ⟨origin, msg⟩ := message
    rw [wp_ite]
    split
    · cases msg with
      | hotStuff msg =>
        exact stays_onHotStuff h fun w' hw' _ => ⟨_, h.1.view_le, HotStuff.wp_onReceiveMsg happ hw'⟩
      | pacemaker msg => exact stays_onPacemaker h fun _ _ => Pacemaker.keeps_onReceiveMsg
      | blockSyncAdvertise msg =>
        exact stays_onBlockSyncClient h fun _ => BlockSyncClient.keeps_onReceiveMsg happ
    · exact h.stays_pure

theorem stays_sync (happ : apps input.app) (h : Ready cr config apps a w) :
    StaysBehind cr config apps a (Algorithm.onBlockSyncClient (BlockSyncClient.tick cr input.app
      fuel input.now input.choice input.tickResponses)) w :=
  stays_onBlockSyncClient h fun _ => BlockSyncClient.keeps_tick happ

/-- One iteration of the algorithm thread does what the protocol allows. -/
theorem keeps_iterate (happ : apps input.app) :
    Keeps (Ready cr config apps a) (Allowed cr config apps a)
      (Algorithm.iterate cr fuel input) :=
  .bind (fun _ hw => (stays_tick hw).wp) fun _ =>
    .bind (fun _ hw => (stays_followView hw).wp) fun _ =>
      .bind (fun _ hw => (stays_receive happ hw).wp) fun _ => fun _ hw => (stays_sync happ hw).wp

end Protocol

/-! ## Runs -/

/-- The world in which an iteration ends, be it by a failure. -/
def Replica.iterated (cr : Crypto) (fuel : Nat) (r : Replica) (input : Input) :
    World Algorithm Action Var.Val :=
  match r.run cr fuel input with
  | .ok _ w => w
  | .error _ w => w

/-- The runs of a replica over its persistent block tree, which is `s₀` at first: any
iterations with any inputs, and crashes after any effect, each followed by a restart. -/
inductive Run (cr : Crypto) (config : Configuration) (apps : App → Prop) (s₀ : BlockTree) :
    List Event → Replica → Prop
  | start {r now} (hstart : Replica.start config s₀ now = .ok r) : Run cr config apps s₀ [] r
  | iterate {log r fuel input w} (run : Run cr config apps s₀ log r) (happ : apps input.app)
      (hok : r.run cr fuel input = .ok () w) :
    Run cr config apps s₀ (log ++ w.effects.map .effect) { alg := w.mem, tree := w.tree }
  | restart {log r fuel input effects r' now} (run : Run cr config apps s₀ log r)
      (happ : apps input.app) (hcrash : effects <+: (r.iterated cr fuel input).effects)
      (hstart : Replica.start config (Store.replay r.tree effects) now = .ok r') :
    Run cr config apps s₀ (log ++ effects.map .effect ++ [.crash]) r'

/-- The events of a run up to any point, also within an iteration. -/
def History (cr : Crypto) (config : Configuration) (apps : App → Prop) (s₀ : BlockTree)
    (log : List Event) : Prop :=
  ∃ log' r fuel input effects, Run cr config apps s₀ log' r ∧ apps input.app ∧
    effects <+: (r.iterated cr fuel input).effects ∧ log = log' ++ effects.map .effect

namespace Protocol

/-- The protocol is where the run that left `log` is. -/
def Tracks (cr : Crypto) (config : Configuration) (apps : App → Prop) (s₀ : BlockTree)
    (log : List Event) (r : Replica) : Prop :=
  Configured config r.alg ∧
  ∃ v₀ st, Algorithm.initView s₀ = .ok v₀ ∧ st.IsOpen ∧
    Path (Step cr config apps) ⟨s₀, v₀, .idle⟩ log ⟨r.tree, r.alg.hotstuff.viewInfo.view, st⟩

/-- A replica starts in the view that `init_view` gives for its tree. -/
theorem start_configured {s : BlockTree} {now : Instant} {r : Replica}
    (h : Replica.start config s now = .ok r) :
    Configured config r.alg ∧ r.tree = s ∧
    Algorithm.initView s = .ok r.alg.hotstuff.viewInfo.view := by
  simp only [Replica.start, Algorithm.new, Pacemaker.new, Result.bind_eq_ok, Result.pure_eq,
    Except.ok.injEq] at h
  obtain ⟨alg, ⟨view, hview, vss, -, pm, ⟨state, -, deadline, -, rfl⟩, rfl⟩, rfl⟩ := h
  exact ⟨⟨rfl, rfl, le_rfl⟩, rfl, hview⟩

variable {s₀ : BlockTree} {log : List Event} {r : Replica}

theorem start_tracks {now : Instant} (h : Replica.start config s₀ now = .ok r) :
    Tracks cr config apps s₀ [] r := by
  obtain ⟨hconfigured, htree, hview⟩ := start_configured h
  refine ⟨hconfigured, _, .idle, hview, .idle, ?_⟩
  rw [htree]
  exact .nil

/-- The state of the protocol before an iteration. -/
theorem Tracks.ready (h : Tracks cr config apps s₀ log r) :
    ∃ a : State, a.tree = r.tree ∧
      (∃ v₀, Algorithm.initView s₀ = .ok v₀ ∧ Path (Step cr config apps) ⟨s₀, v₀, .idle⟩ log a) ∧
      Ready cr config apps a { mem := r.alg, base := r.tree, effects := [] } := by
  obtain ⟨hconfigured, v₀, st, hv₀, hst, path⟩ := h
  exact ⟨_, rfl, ⟨v₀, hv₀, path⟩, hconfigured, st, hst, rfl, .nil⟩

theorem Tracks.iterated (h : Tracks cr config apps s₀ log r) {fuel : Nat} {input : Input}
    (happ : apps input.app) {effects : List Replica.Effect}
    (hcrash : effects <+: (r.iterated cr fuel input).effects) :
    ∃ v₀ b, Algorithm.initView s₀ = .ok v₀ ∧
      Path (Step cr config apps) ⟨s₀, v₀, .idle⟩ (log ++ effects.map .effect) b := by
  obtain ⟨a, -, ⟨v₀, hv₀, path⟩, hready⟩ := h.ready
  have hallowed : Allowed cr config apps a (r.iterated cr fuel input) := by
    have hwp : wp (Algorithm.iterate cr fuel input) _ _ _ := keeps_iterate happ _ hready
    unfold Replica.iterated Replica.run
    cases hrun : Algorithm.iterate cr fuel input { mem := r.alg, base := r.tree, effects := [] } with
    | ok _ w => exact (wp_ok hwp hrun).allowed
    | error _ w => exact wp_error hwp hrun
  obtain ⟨v, st, -, hpath⟩ := hallowed
  obtain ⟨rest, hrest⟩ := hcrash
  rw [← hrest, List.map_append, Path.append_iff] at hpath
  obtain ⟨b, hb, -⟩ := hpath
  exact ⟨v₀, b, hv₀, path.append hb⟩

theorem Tracks.tree_eq (h : Tracks cr config apps s₀ log r) : r.tree = s₀.replay log :=
  let ⟨_, _, _, _, _, path⟩ := h
  path_tree path

/-- Every run is a run of the protocol. -/
theorem run_tracks (h : Run cr config apps s₀ log r) : Tracks cr config apps s₀ log r := by
  induction h with
  | start hstart => exact start_tracks hstart
  | iterate run happ hok ih =>
    obtain ⟨a, -, ⟨v₀, hv₀, path⟩, hready⟩ := ih.ready
    obtain ⟨hconfigured, st, hst, -, hpath⟩ := wp_ok (keeps_iterate happ _ hready) hok
    exact ⟨hconfigured, v₀, st, hv₀, hst, path.append hpath⟩
  | restart run happ hcrash hstart ih =>
    obtain ⟨hconfigured, htree, hview⟩ := start_configured hstart
    obtain ⟨v₀, ⟨s, v, st⟩, hv₀, path⟩ := ih.iterated happ hcrash
    have hs := path_tree path
    rw [BlockTree.replay_append, ← ih.tree_eq, BlockTree.replay_effects] at hs
    refine ⟨hconfigured, v₀, .idle, hv₀, .idle, ?_⟩
    rw [htree]
    obtain rfl : s = _ := hs
    exact path.snoc (.crash hview)

/-- The events of a run are such as the protocol allows. -/
theorem history_path (h : History cr config apps s₀ log) :
    ∃ v₀ b, Algorithm.initView s₀ = .ok v₀ ∧
      Path (Step cr config apps) ⟨s₀, v₀, .idle⟩ log b ∧ b.tree = s₀.replay log := by
  obtain ⟨log', r, fuel, input, effects, hrun, happ, heffects, rfl⟩ := h
  obtain ⟨v₀, b, hv₀, path⟩ := (run_tracks hrun).iterated happ heffects
  exact ⟨v₀, b, hv₀, path, path_tree path⟩

end Protocol

theorem Run.tree_eq {s₀ : BlockTree} {log : List Event} {r : Replica}
    (run : Run cr config apps s₀ log r) : r.tree = s₀.replay log :=
  (Protocol.run_tracks run).tree_eq

theorem Run.history {s₀ : BlockTree} {log : List Event} {r : Replica}
    (run : Run cr config apps s₀ log r) {app : App} (happ : apps app) :
    History cr config apps s₀ log := by
  let input : Input :=
    { now := 0, app, message := none, messageResponses := [], tickResponses := [], choice := 0 }
  exact ⟨log, r, 0, input, [], run, happ, List.nil_prefix, by simp⟩

/-- What a run has done up to an earlier point is a history, too. -/
theorem Run.history_of_isPrefix {s₀ : BlockTree} {log log' : List Event} {r : Replica}
    (run : Run cr config apps s₀ log r) {app : App} (happ : apps app) (hlog : log' <+: log) :
    History cr config apps s₀ log' := by
  induction run generalizing log' with
  | start hstart =>
    obtain rfl := List.prefix_nil.mp hlog
    exact (Run.start hstart).history happ
  | @iterate log r fuel input w run happ' hok ih =>
    rcases List.prefix_or_prefix_of_prefix hlog (List.prefix_append log _) with hlog' | ⟨rest, rfl⟩
    · exact ih hlog'
    · obtain ⟨effects, heffects, rfl⟩ :=
        List.prefix_map_iff.mp ((List.prefix_append_right_inj log).mp hlog)
      refine ⟨log, r, fuel, input, effects, run, happ', ?_, rfl⟩
      rw [Replica.iterated, hok]
      exact heffects
  | @restart log r fuel input effects r' now run happ' hcrash hstart ih =>
    rcases List.prefix_concat_iff.mp hlog with rfl | hlog
    · exact (run.restart happ' hcrash hstart).history happ
    rcases List.prefix_or_prefix_of_prefix hlog (List.prefix_append log _) with hlog' | ⟨rest, rfl⟩
    · exact ih hlog'
    · obtain ⟨effects', heffects, rfl⟩ :=
        List.prefix_map_iff.mp ((List.prefix_append_right_inj log).mp hlog)
      exact ⟨log, r, fuel, input, effects', run, happ', heffects.trans hcrash, rfl⟩

theorem History.of_isPrefix {s₀ : BlockTree} {log log' : List Event}
    (h : History cr config apps s₀ log) (hlog : log' <+: log) : History cr config apps s₀ log' := by
  obtain ⟨before, r, fuel, input, effects, run, happ, heffects, rfl⟩ := h
  rcases List.prefix_or_prefix_of_prefix hlog (List.prefix_append before _) with hbefore | ⟨rest, rfl⟩
  · exact run.history_of_isPrefix happ hbefore
  · obtain ⟨effects', heffects', rfl⟩ :=
      List.prefix_map_iff.mp ((List.prefix_append_right_inj before).mp hlog)
    exact ⟨before, r, fuel, input, effects', run, happ, heffects'.trans heffects, rfl⟩

/-! ## Running a replica -/

/-- The events of some iterations and the replica after them, unless one fails. -/
def Replica.iterateAll (cr : Crypto) (fuel : Nat) (r : Replica) :
    List Input → Option (List Event × Replica)
  | [] => some ([], r)
  | input :: inputs =>
    match r.run cr fuel input with
    | .ok _ w =>
      (iterateAll cr fuel { alg := w.mem, tree := w.tree } inputs).map fun (log, r') =>
        (w.effects.map .effect ++ log, r')
    | .error _ _ => none

theorem Run.iterateAll {s₀ : BlockTree} {log log' : List Event} {r r' : Replica} {fuel : Nat}
    {inputs : List Input} (run : Run cr config apps s₀ log r)
    (happ : ∀ input ∈ inputs, apps input.app)
    (h : r.iterateAll cr fuel inputs = some (log', r')) :
    Run cr config apps s₀ (log ++ log') r' := by
  induction inputs generalizing log log' r with
  | nil =>
    obtain ⟨rfl, rfl⟩ : [] = log' ∧ r = r' := by simpa [Replica.iterateAll] using h
    simpa using run
  | cons input inputs ih =>
    rw [Replica.iterateAll] at h
    cases hrun : r.run cr fuel input with
    | error e w => simp [hrun] at h
    | ok a w =>
      simp only [hrun, Option.map_eq_some_iff, Prod.mk.injEq] at h
      obtain ⟨⟨rest, r''⟩, hrest, rfl, rfl⟩ := h
      rw [← List.append_assoc]
      exact ih (run.iterate (happ input List.mem_cons_self) hrun)
        (fun input' hinput' => happ input' (List.mem_cons_of_mem _ hinput')) hrest

/-- Whether a replica that starts over `s₀` and gets `inputs` ends in a tree with `P`. -/
def Replica.reaches (cr : Crypto) (config : Configuration) (s₀ : BlockTree) (fuel : Nat)
    (inputs : List Input) (P : BlockTree → Bool) : Bool :=
  match Replica.start config s₀ 0 with
  | .ok r => (r.iterateAll cr fuel inputs).any fun (_, r') => P r'.tree
  | .error _ => false

theorem exists_history_of_reaches {s₀ : BlockTree} {fuel : Nat} {inputs : List Input}
    {P : BlockTree → Bool} {app : App} (happ : apps app) (happs : ∀ input ∈ inputs, apps input.app)
    (h : Replica.reaches cr config s₀ fuel inputs P = true) :
    ∃ log, History cr config apps s₀ log ∧ P (s₀.replay log) = true := by
  unfold Replica.reaches at h
  split at h
  · rename_i r hstart
    obtain ⟨⟨log, r'⟩, hall, hP⟩ := (Option.any_eq_true _ _).mp h
    have run := (Run.start hstart).iterateAll happs hall
    refine ⟨_, run.history happ, ?_⟩
    rw [← run.tree_eq]
    exact hP
  · cases h

/-! ## A small network

Two validators, of which the second has a quorum of its own. -/

namespace Sample

def leader : VerifyingKey := 2

def validators : ValidatorSet := (ValidatorSet.new.put 1 1).put leader 3

def tree : BlockTree := BlockTree.initial UpdateSet.new ⟨validators, validators, none, true⟩

def configuration (me : VerifyingKey) : Configuration where
  me
  chainId := 7
  blockSyncRequestLimit := 10
  blockSyncResponseTimeout := 10 ^ 9
  blockSyncBlacklistExpiryTime := 10 ^ 9
  blockSyncTriggerMinViewDifference := 1000
  blockSyncTriggerTimeout := 10 ^ 20
  epochLength := 10
  maxViewTime := 10 ^ 9

/-- An app that finds every block valid. -/
def app : App where
  produceBlock view _ _ := (Fin.ofNat _ (view.val + 100), [])
  validateBlock _ _ := .valid none none
  validateBlockForSync _ _ := .valid none none

def input (origin : VerifyingKey) (message : ProgressMessage) (now : Instant) : Input where
  now
  app
  message := some (origin, message)
  messageResponses := []
  tickResponses := []
  choice := 0

/-- The certificate that the leader can make on its own. -/
def certify (view : ViewNumber) (block : CryptoHash) (phase : Phase) : PhaseCertificate :=
  ⟨7, view, block, phase, [none, some (crypto.sign leader (phaseVoteBytes 7 view block phase))]⟩

def timeout : TimeoutCertificate :=
  ⟨7, 0, [none, some (crypto.sign leader (timeoutVoteBytes 7 0))]⟩

def blockOn (height : BlockHeight) (justify : PhaseCertificate) (dataHash : CryptoHash) : Block :=
  match Block.new crypto height justify dataHash [] with
  | .ok block => block
  | .error _ => ⟨height, 0, justify, dataHash, []⟩

def propose (view : ViewNumber) (block : Block) : Input :=
  input leader (.hotStuff (.proposal ⟨7, view, block⟩)) (3 * 10 ^ 9)

def advance (certificate : ProgressCertificate) : Input :=
  input leader (.pacemaker (.advanceView ⟨certificate⟩)) (3 * 10 ^ 9)

/-- A chain of three blocks, one for each of the first views. -/
def block₀ : Block := blockOn 0 .genesisPc 101

def block₁ : Block := blockOn 1 (certify 1 block₀.hash .generic) 102

def block₂ : Block := blockOn 2 (certify 2 block₁.hash .generic) 103

def firstThreeViews : List Input :=
  [advance (.timeoutCertificate timeout), propose 1 block₀,
   advance (.phaseCertificate (certify 1 block₀.hash .generic)), propose 2 block₁,
   advance (.phaseCertificate (certify 2 block₁.hash .generic)), propose 3 block₂]

theorem app_firstThreeViews : ∀ input ∈ firstThreeViews, input.app = app := by
  simp [firstThreeViews, advance, propose, input]

end Sample

end HotStuffRs
