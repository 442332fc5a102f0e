import HotStuffRs.Replica.Preserved

/-
Runs whose iterations all meet a condition, and why a run invariant holds of them.
-/

namespace HotStuffRs

open Kv Kv.Process

variable {cr : Crypto} {config : Configuration} {apps : App → Prop} {s₀ : BlockTree}

/-- An iteration up to the point where it handles a message. -/
def Algorithm.beforeReceive (cr : Crypto) (fuel : Nat) (input : Input) : Algorithm.Handler Unit := do
  onPacemaker (Pacemaker.tick cr input.now)
  followView cr fuel input

theorem Algorithm.iterate_eq (fuel : Nat) (input : Input) :
    Algorithm.iterate cr fuel input = (do
      beforeReceive cr fuel input
      receive cr fuel input
      onBlockSyncClient
        (BlockSyncClient.tick cr input.app fuel input.now input.choice input.tickResponses)) := by
  simp only [Algorithm.iterate, beforeReceive, bind_assoc]

/-- The world in which an iteration of `r` starts. -/
def Replica.world (r : Replica) : World Algorithm Action Var.Val :=
  { mem := r.alg, base := r.tree, effects := [] }

/-- What may be asked of an iteration of a replica that ends, or is cut short by a crash,
after some effects. -/
abbrev Condition := Replica → Nat → Input → List Replica.Effect → Prop

/-- The timeout certificates that `input` makes `r` fall back on are such as `admits` says. -/
def FallsBackOnly (cr : Crypto) (admits : TimeoutCertificate → Prop) (r : Replica) (fuel : Nat)
    (input : Input) : Prop :=
  ∀ w, Algorithm.beforeReceive cr fuel input r.world = .ok () w →
    ∀ origin vote tc, input.message = some (origin, .pacemaker (.timeoutVote vote)) →
      (ProgressMessage.pacemaker (.timeoutVote vote)).receivable w.mem.chainId
        w.mem.pacemaker.viewInfo.view = true →
      RunInvariant.Pacemaker.FallsBack cr w.mem.pacemaker w.tree vote origin tc → admits tc

/-- The runs whose iterations all meet `C`. -/
inductive RunUnder (cr : Crypto) (config : Configuration) (apps : App → Prop) (s₀ : BlockTree)
    (C : Condition) : List Event → Replica → Prop
  | start {r now} (hstart : Replica.start config s₀ now = .ok r) :
    RunUnder cr config apps s₀ C [] r
  | iterate {log r fuel input w} (run : RunUnder cr config apps s₀ C log r)
      (happ : apps input.app) (hok : r.run cr fuel input = .ok () w)
      (hC : C r fuel input w.effects) :
    RunUnder cr config apps s₀ C (log ++ w.effects.map .effect) { alg := w.mem, tree := w.tree }
  | restart {log r fuel input effects r' now} (run : RunUnder cr config apps s₀ C log r)
      (happ : apps input.app) (hcrash : effects <+: (r.iterated cr fuel input).effects)
      (hC : C r fuel input effects)
      (hstart : Replica.start config (Store.replay r.tree effects) now = .ok r') :
    RunUnder cr config apps s₀ C (log ++ effects.map .effect ++ [.crash]) r'

/-- The events of such a run up to any point, also within an iteration. -/
def HistoryUnder (cr : Crypto) (config : Configuration) (apps : App → Prop) (s₀ : BlockTree)
    (C : Condition) (log : List Event) : Prop :=
  ∃ log' r fuel input effects, RunUnder cr config apps s₀ C log' r ∧ apps input.app ∧
    effects <+: (r.iterated cr fuel input).effects ∧ C r fuel input effects ∧
    log = log' ++ effects.map .effect

theorem Run.under {log : List Event} {r : Replica} (h : Run cr config apps s₀ log r) :
    RunUnder cr config apps s₀ (fun _ _ _ _ => True) log r := by
  induction h with
  | start hstart => exact .start hstart
  | iterate _ happ hok ih => exact ih.iterate happ hok trivial
  | restart _ happ hcrash hstart ih => exact ih.restart happ hcrash trivial hstart

theorem History.under {log : List Event} (h : History cr config apps s₀ log) :
    HistoryUnder cr config apps s₀ (fun _ _ _ _ => True) log := by
  obtain ⟨log', r, fuel, input, effects, run, happ, heffects, rfl⟩ := h
  exact ⟨log', r, fuel, input, effects, run.under, happ, heffects, trivial, rfl⟩

theorem RunUnder.mono {C C' : Condition} {log : List Event} {r : Replica}
    (h : RunUnder cr config apps s₀ C log r)
    (hC : ∀ r fuel input effects, C r fuel input effects → C' r fuel input effects) :
    RunUnder cr config apps s₀ C' log r := by
  induction h with
  | start hstart => exact .start hstart
  | iterate _ happ hok hmeets ih => exact ih.iterate happ hok (hC _ _ _ _ hmeets)
  | restart _ happ hcrash hmeets hstart ih => exact ih.restart happ hcrash (hC _ _ _ _ hmeets) hstart

/-- Some iterations as `iterateAll` gives them, if the effects of each pass a check. -/
def Replica.iterateUnder (cr : Crypto) (fuel : Nat) (check : Replica → List Replica.Effect → Bool)
    (r : Replica) : List Input → Option (List Event × Replica)
  | [] => some ([], r)
  | input :: inputs =>
    match r.run cr fuel input with
    | .ok _ w =>
      if check r w.effects then
        (iterateUnder cr fuel check { alg := w.mem, tree := w.tree } inputs).map fun (log, r') =>
          (w.effects.map .effect ++ log, r')
      else none
    | .error _ _ => none

theorem RunUnder.iterateUnder {C : Condition} {log log' : List Event} {r r' : Replica} {fuel : Nat}
    {check : Replica → List Replica.Effect → Bool} {inputs : List Input}
    (run : RunUnder cr config apps s₀ C log r) (happs : ∀ input ∈ inputs, apps input.app)
    (hcheck : ∀ r, ∀ input ∈ inputs, ∀ effects, check r effects = true → C r fuel input effects)
    (h : r.iterateUnder cr fuel check inputs = some (log', r')) :
    RunUnder cr config apps s₀ C (log ++ log') r' := by
  induction inputs generalizing log log' r with
  | nil =>
    obtain ⟨rfl, rfl⟩ : [] = log' ∧ r = r' := by simpa [Replica.iterateUnder] using h
    simpa using run
  | cons input inputs ih =>
    rw [Replica.iterateUnder] at h
    cases hrun : r.run cr fuel input with
    | error e w => simp [hrun] at h
    | ok a w =>
      simp only [hrun, Option.ite_none_right_eq_some, Option.map_eq_some_iff, Prod.mk.injEq] at h
      obtain ⟨hmeets, ⟨rest, r''⟩, hrest, rfl, rfl⟩ := h
      rw [← List.append_assoc]
      have hC := hcheck r input List.mem_cons_self _ hmeets
      exact ih (run.iterate (happs input List.mem_cons_self) hrun hC)
        (fun input' hinput' => happs input' (List.mem_cons_of_mem _ hinput'))
        (fun r' input' hinput' => hcheck r' input' (List.mem_cons_of_mem _ hinput')) hrest

/-- Whether a replica that starts over `s₀` and gets `inputs` passes a check in each
iteration, and `P` holds at the end. -/
def Replica.checks (cr : Crypto) (config : Configuration) (s₀ : BlockTree) (fuel : Nat)
    (check : Replica → List Replica.Effect → Bool) (inputs : List Input)
    (P : List Event → Replica → Bool) : Bool :=
  match Replica.start config s₀ 0 with
  | .ok r => (r.iterateUnder cr fuel check inputs).any fun (log, r') => P log r'
  | .error _ => false

/-- The condition may depend on what the whole run leaves behind. -/
theorem exists_runUnder_of_checks_log {C : List Event → Condition} {fuel : Nat}
    {check : Replica → List Replica.Effect → Bool} {inputs : List Input}
    {P : List Event → Replica → Bool} (happs : ∀ input ∈ inputs, apps input.app)
    (hcheck : ∀ log r', P log r' = true → ∀ r, ∀ input ∈ inputs, ∀ effects,
      check r effects = true → C log r fuel input effects)
    (h : Replica.checks cr config s₀ fuel check inputs P = true) :
    ∃ log r, RunUnder cr config apps s₀ (C log) log r ∧ P log r = true := by
  unfold Replica.checks at h
  split at h
  · rename_i r hstart
    obtain ⟨⟨log, r'⟩, hall, hP⟩ := (Option.any_eq_true _ _).mp h
    exact ⟨_, r', (RunUnder.start hstart).iterateUnder happs (hcheck log r' hP) hall, hP⟩
  · cases h

theorem exists_runUnder_of_checks {C : Condition} {fuel : Nat}
    {check : Replica → List Replica.Effect → Bool} {inputs : List Input}
    {P : List Event → Replica → Bool} (happs : ∀ input ∈ inputs, apps input.app)
    (hcheck : ∀ r, ∀ input ∈ inputs, ∀ effects, check r effects = true → C r fuel input effects)
    (h : Replica.checks cr config s₀ fuel check inputs P = true) :
    ∃ log r, RunUnder cr config apps s₀ C log r ∧ P log r = true :=
  exists_runUnder_of_checks_log happs (fun _ _ _ => hcheck) h

/-- Without a check, these are the iterations of `iterateAll`. -/
theorem Replica.iterateUnder_true {r : Replica} {fuel : Nat} {inputs : List Input} :
    r.iterateUnder cr fuel (fun _ _ => true) inputs = r.iterateAll cr fuel inputs := by
  induction inputs generalizing r with
  | nil => rfl
  | cons input inputs ih =>
    rw [Replica.iterateUnder, Replica.iterateAll]
    cases r.run cr fuel input with
    | error e w => rfl
    | ok a w => simp only [if_true, ih]

theorem exists_runUnder_of_reaches {C : Condition} {fuel : Nat} {inputs : List Input}
    {P : BlockTree → Bool}
    (hinputs : ∀ input ∈ inputs, apps input.app ∧ ∀ r fuel effects, C r fuel input effects)
    (h : Replica.reaches cr config s₀ fuel inputs P = true) :
    ∃ log r, RunUnder cr config apps s₀ C log r ∧ P r.tree = true := by
  have hchecks : Replica.checks cr config s₀ fuel (fun _ _ => true) inputs
      (fun _ r => P r.tree) = true := by
    unfold Replica.checks
    simp only [Replica.iterateUnder_true]
    exact h
  exact exists_runUnder_of_checks (fun input hinput => (hinputs input hinput).1)
    (fun r input hinput effects _ => (hinputs input hinput).2 r fuel effects) hchecks

theorem RunUnder.run {C : Condition} {log : List Event} {r : Replica}
    (h : RunUnder cr config apps s₀ C log r) : Run cr config apps s₀ log r := by
  induction h with
  | start hstart => exact .start hstart
  | iterate _ happ hok _ ih => exact ih.iterate happ hok
  | restart _ happ hcrash _ hstart ih => exact ih.restart happ hcrash hstart

theorem RunUnder.tree_eq {C : Condition} {log : List Event} {r : Replica}
    (h : RunUnder cr config apps s₀ C log r) : r.tree = s₀.replay log :=
  h.run.tree_eq

/-- What is checked of the iterations of one app is true of a run. -/
theorem exists_run_of_checks {app : App} {fuel : Nat}
    {check : Replica → List Replica.Effect → Bool} {inputs : List Input}
    {P : List Event → Replica → Bool} (happs : ∀ input ∈ inputs, input.app = app)
    (h : Replica.checks cr config s₀ fuel check inputs P = true) :
    ∃ log r, Run cr config (· = app) s₀ log r ∧ P log r = true := by
  obtain ⟨log, r, run, hP⟩ := @exists_runUnder_of_checks _ _ (· = app) _ (fun _ _ _ _ => True)
    _ _ _ _ happs (fun _ _ _ _ _ => trivial) h
  exact ⟨log, r, run.run, hP⟩

/-- What is checked of the iterations of one app is true of a history. -/
theorem exists_history_of_checks {app : App} {fuel : Nat}
    {check : Replica → List Replica.Effect → Bool} {inputs : List Input}
    {P : List Event → Replica → Bool} (happs : ∀ input ∈ inputs, input.app = app)
    (h : Replica.checks cr config s₀ fuel check inputs P = true) :
    ∃ log r, History cr config (· = app) s₀ log ∧ r.tree = s₀.replay log ∧ P log r = true := by
  obtain ⟨log, r, run, hP⟩ := exists_run_of_checks happs h
  exact ⟨log, r, run.history (rfl : app = app), run.tree_eq, hP⟩

/-- A run can be left where it stands, as an iteration without a message has just started. -/
theorem RunUnder.history {C : Condition} {log : List Event} {r : Replica}
    (h : RunUnder cr config apps s₀ C log r) {app : App} (happ : apps app)
    (hC : ∀ fuel input, input.message = none → C r fuel input []) :
    HistoryUnder cr config apps s₀ C log := by
  let input : Input :=
    { now := 0, app, message := none, messageResponses := [], tickResponses := [], choice := 0 }
  exact ⟨log, r, 0, input, [], h, happ, List.nil_prefix, hC 0 input rfl, by simp⟩

namespace RunInvariant

variable (I : RunInvariant cr config apps s₀) (log : List Event)

/-- What each part of a replica is configured with. -/
structure Configured (config : Configuration) (alg : Algorithm) : Prop where
  chainId : alg.chainId = config.chainId
  hotstuff : alg.hotstuff.config = config.hotstuff
  pacemaker : alg.pacemaker.config = config.pacemaker
  blockSyncClient : alg.blockSyncClient.config = config.blockSyncClient

/-- The replica is between two moves. -/
def Ready (w : World Algorithm Action Var.Val) : Prop :=
  Configured config w.mem ∧ I.Holds log w.mem.pacemaker.state.timeoutVoteCollectors w

variable {I log} {fuel : Nat} {input : Input} {w : World Algorithm Action Var.Val}

theorem Ready.halted (h : I.Ready log w) : I.Halted log w := h.2.halted

theorem keeps_onHotStuff {h : HotStuff.Handler Unit}
    (hh : ∀ c, Keeps (HotStuff.Ready I log c) (I.Halted log) h) :
    Keeps (I.Ready log) (I.Halted log) (Algorithm.onHotStuff h) := by
  intro w hw
  obtain ⟨⟨hchain, hhotstuff, hpacemaker, hclient⟩, hholds⟩ := hw
  rw [Algorithm.onHotStuff, wp_zoom]
  refine wp_mono (hh _ _ ⟨hhotstuff, hholds.congr rfl rfl⟩) (fun _ w' hw' => ?_)
    fun w' hw' => hw'.congr rfl rfl
  exact ⟨⟨hchain, hw'.1, hpacemaker, hclient⟩, hw'.2.congr rfl rfl⟩

theorem keeps_onBlockSyncClient {h : BlockSyncClient.Handler Unit}
    (hh : ∀ c, Keeps (BlockSyncClient.Ready I log c) (I.Halted log) h) :
    Keeps (I.Ready log) (I.Halted log) (Algorithm.onBlockSyncClient h) := by
  intro w hw
  obtain ⟨⟨hchain, hhotstuff, hpacemaker, hclient⟩, hholds⟩ := hw
  rw [Algorithm.onBlockSyncClient, wp_zoom]
  refine wp_mono (hh _ _ ⟨hclient, hholds.congr rfl rfl⟩) (fun _ w' hw' => ?_)
    fun w' hw' => hw'.congr rfl rfl
  exact ⟨⟨hchain, hhotstuff, hpacemaker, hw'.1⟩, hw'.2.congr rfl rfl⟩

theorem wp_onPacemaker {h : Pacemaker.Handler Unit} (hw : I.Ready log w)
    (hh : wp h (fun _ => Pacemaker.Ready I log) (I.Halted log)
      { mem := w.mem.pacemaker, base := w.base, effects := w.effects }) :
    wp (Algorithm.onPacemaker h) (fun _ => I.Ready log) (I.Halted log) w := by
  obtain ⟨⟨hchain, hhotstuff, hpacemaker, hclient⟩, hholds⟩ := hw
  rw [Algorithm.onPacemaker, wp_zoom]
  refine wp_mono hh (fun _ w' hw' => ?_) fun w' hw' => hw'.congr rfl rfl
  exact ⟨⟨hchain, hhotstuff, hw'.1, hclient⟩, hw'.2.congr rfl rfl⟩

theorem Ready.pacemaker (h : I.Ready log w) : Pacemaker.Ready I log
    { mem := w.mem.pacemaker, base := w.base, effects := w.effects } :=
  ⟨h.1.pacemaker, h.2.congr rfl rfl⟩

theorem keeps_beforeReceive :
    Keeps (I.Ready log) (I.Halted log) (Algorithm.beforeReceive cr fuel input) := by
  refine .bind (fun w hw => wp_onPacemaker hw (Pacemaker.keeps_tick _ hw.pacemaker)) fun _ => ?_
  exact .bind .mem fun alg => .ite (keeps_onHotStuff fun _ => HotStuff.keeps_enterView) (.pure _)

/-- A message is handled, which the guard of `recv` has let through. -/
theorem wp_receive (happ : apps input.app) (h : I.Ready log w)
    (hadmits : ∀ origin vote tc, input.message = some (origin, .pacemaker (.timeoutVote vote)) →
      (ProgressMessage.pacemaker (.timeoutVote vote)).receivable w.mem.chainId
        w.mem.pacemaker.viewInfo.view = true →
      Pacemaker.FallsBack cr w.mem.pacemaker w.tree vote origin tc → I.Admits tc) :
    wp (Algorithm.receive cr fuel input) (fun _ => I.Ready log) (I.Halted log) w := by
  rw [Algorithm.receive, wp_bind, wp_mem]
  cases hmessage : input.message with
  | none => exact h
  | some message =>
    obtain ⟨origin, msg⟩ := message
    dsimp only
    rw [wp_ite]
    split
    · rename_i hreceivable
      cases msg with
      | hotStuff msg =>
        exact keeps_onHotStuff (fun _ => HotStuff.keeps_onReceiveMsg happ) w h
      | blockSyncAdvertise msg =>
        exact keeps_onBlockSyncClient (fun _ => BlockSyncClient.keeps_onReceiveMsg happ) w h
      | pacemaker msg =>
        refine wp_onPacemaker h ?_
        cases msg with
        | timeoutVote vote =>
          exact Pacemaker.wp_onReceiveTimeoutVote h.pacemaker
            fun tc hfalls => hadmits origin vote tc hmessage hreceivable hfalls
        | advanceView advanceView =>
          refine Pacemaker.wp_onReceiveAdvanceView h.pacemaker ?_
          have hchain : advanceView.progressCertificate.chainId = w.mem.chainId := by
            simp only [ProgressMessage.receivable, PacemakerMessage.chainId, Bool.and_eq_true,
              beq_iff_eq] at hreceivable
            exact hreceivable.1
          rw [hchain, h.1.chainId]
    · exact h

/-- An iteration keeps the invariant, if the timeout certificates that it falls back on are
such as the invariant admits. -/
theorem wp_iterate {r : Replica} (happ : apps input.app) (h : I.Ready log r.world)
    (hadmits : FallsBackOnly cr I.Admits r fuel input) :
    wp (Algorithm.iterate cr fuel input) (fun _ => I.Ready log) (I.Halted log) r.world := by
  rw [Algorithm.iterate_eq, wp_bind]
  refine wp_mono (wp_and_run (keeps_beforeReceive _ h)) (fun _ w hw => ?_) fun _ => id
  obtain ⟨hw, hrun⟩ := hw
  rw [wp_bind]
  refine wp_mono (wp_receive happ hw (hadmits w hrun)) (fun _ w' hw' => ?_) fun _ => id
  exact keeps_onBlockSyncClient (fun _ => BlockSyncClient.keeps_tick happ) w' hw'

/-- The point at which an iteration of `r` starts. -/
theorem ready_world {r : Replica} (hconfigured : Configured config r.alg)
    (htree : r.tree = s₀.replay log)
    (hopen : I.Open ⟨log, []⟩ r.alg.pacemaker.state.timeoutVoteCollectors) :
    I.Ready log r.world := by
  refine ⟨hconfigured, ⟨htree, ?_⟩, hopen⟩
  intro effects hprefix
  obtain rfl := List.prefix_nil.mp hprefix
  exact I.halt hopen

theorem halted_iterated {r : Replica} (happ : apps input.app) (h : I.Ready log r.world)
    (hadmits : FallsBackOnly cr I.Admits r fuel input) :
    I.Halted log (r.iterated cr fuel input) := by
  have hwp := wp_iterate happ h hadmits
  unfold Replica.iterated Replica.run
  cases hrun : Algorithm.iterate cr fuel input { mem := r.alg, base := r.tree, effects := [] } with
  | ok _ w => exact (wp_ok hwp hrun).halted
  | error _ w => exact wp_error hwp hrun

/-- A replica starts with new collectors for the validator sets of its tree. -/
theorem start_collectors {s : BlockTree} {now : Instant} {r : Replica}
    (h : Replica.start config s now = .ok r) :
    Configured config r.alg ∧ r.tree = s ∧ ∃ v vss, s.kv.validatorSetState = .ok vss ∧
      r.alg.pacemaker.state.timeoutVoteCollectors = .new config.chainId v vss := by
  simp only [Replica.start, Algorithm.new, Pacemaker.new, PacemakerState.initial,
    Result.bind_eq_ok, Result.pure_eq, Except.ok.injEq] at h
  obtain ⟨alg, ⟨view, hview, vss, hvss, pm, ⟨state, ⟨timeouts, -, rfl⟩, deadline, -, rfl⟩, rfl⟩,
    rfl⟩ := h
  exact ⟨⟨rfl, rfl, rfl, rfl⟩, rfl, view, vss, hvss, rfl⟩

variable {C : Condition} {r : Replica}

/-- The iterations of a run are such as `I` asks. -/
def Suffices (I : RunInvariant cr config apps s₀) (C : Condition) : Prop :=
  ∀ log r fuel input effects, r.tree = s₀.replay log → C r fuel input effects →
    I.Quiet ⟨log, effects⟩ ∧ FallsBackOnly cr I.Admits r fuel input

/-- What is asked of an iteration is often about its effects and the tree it starts in. -/
theorem suffices_of_tree {Q : BlockTree → List Replica.Effect → Prop}
    (hadmits : ∀ tc, I.Admits tc)
    (hquiet : ∀ log effects, Q (s₀.replay log) effects → I.Quiet ⟨log, effects⟩) :
    I.Suffices fun r _ _ effects => Q r.tree effects := by
  intro log r fuel input effects htree hQ
  rw [htree] at hQ
  exact ⟨hquiet log effects hQ, fun _ _ _ _ tc _ _ _ => hadmits tc⟩

/-- A run invariant holds between any two iterations. -/
theorem isOpen_of_run (hC : I.Suffices C) (h : RunUnder cr config apps s₀ C log r) :
    Configured config r.alg ∧ r.tree = s₀.replay log ∧
      I.Open ⟨log, []⟩ r.alg.pacemaker.state.timeoutVoteCollectors := by
  induction h with
  | start hstart =>
    obtain ⟨hconfigured, htree, v, vss, hvss, hcollectors⟩ := start_collectors hstart
    refine ⟨hconfigured, htree, ?_⟩
    rw [hcollectors]
    exact I.start hvss
  | iterate run happ hok hmeets ih =>
    obtain ⟨hconfigured, htree, hopen⟩ := ih
    obtain ⟨hquiet, hadmits⟩ := hC _ _ _ _ _ htree hmeets
    have hready := wp_ok (wp_iterate happ (ready_world hconfigured htree hopen) hadmits) hok
    refine ⟨hready.1, ?_, I.next hready.2.isOpen hquiet⟩
    rw [hready.2.tree_eq, Point.tree_eq]
    rfl
  | restart run happ hcrash hmeets hstart ih =>
    obtain ⟨hconfigured, htree, hopen⟩ := ih
    obtain ⟨hquiet, hadmits⟩ := hC _ _ _ _ _ htree hmeets
    have hhalted := halted_iterated happ (ready_world hconfigured htree hopen) hadmits
    obtain ⟨hconfigured', htree', v, vss, hvss, hcollectors⟩ := start_collectors hstart
    rw [htree] at hvss htree'
    refine ⟨hconfigured', ?_, ?_⟩
    · rw [htree', BlockTree.replay_snoc, BlockTree.perform_crash, BlockTree.replay_append,
        BlockTree.replay_effects]
    · rw [hcollectors]
      exact I.crash (hhalted.2 _ hcrash) hquiet hvss

/-- A crash finds what it may at any point of a run. -/
theorem halt_of_history (hC : I.Suffices C) (h : HistoryUnder cr config apps s₀ C log) :
    ∃ p : Point, p.past = log ∧ I.Halt p := by
  obtain ⟨log', r, fuel, input, effects, run, happ, hcrash, hmeets, rfl⟩ := h
  obtain ⟨hconfigured, htree, hopen⟩ := isOpen_of_run hC run
  obtain ⟨-, hadmits⟩ := hC _ _ _ _ _ htree hmeets
  have hhalted := halted_iterated happ (ready_world hconfigured htree hopen) hadmits
  exact ⟨⟨log', effects⟩, rfl, hhalted.2 _ hcrash⟩

end RunInvariant
end HotStuffRs
