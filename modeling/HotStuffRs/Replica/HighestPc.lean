import HotStuffRs.Replica.Authentic

/-
The highest PC and what it leads.

A leader builds its proposal upon the highest PC and relies on it not to be behind the lock.
The lock may be set to the justify of another block, so the justifies of all blocks have to be
kept up with, too.
-/

namespace HotStuffRs

open Kv

/-- The highest PC is not behind the lock, nor behind the justify of any block. -/
def HighestPcLeads (s : BlockTree) : Prop :=
  ∃ highest locked, s.kv.highestPc = .ok highest ∧ s.kv.lockedPc = .ok locked ∧
    locked.view ≤ highest.view ∧
    ∀ b justify, s.kv.blockJustify b = .ok justify → justify.view ≤ highest.view

variable {cr : Crypto} {config : Configuration} {apps : App → Prop} {s₀ s s' : BlockTree}
  {justify : PhaseCertificate} {fuel : Nat} {wb : WriteBatch} {updates : Option ValidatorSetUpdates}
  {log : List Event}

theorem highestPcLeads_iff : HighestPcLeads s ↔ (s .lockedPc).isSome = true ∧
    ∃ highest, s .highestPc = some highest ∧ ∀ pc, KeepsPc s pc → pc.view ≤ highest.view := by
  simp only [HighestPcLeads, kv_highestPc_eq_ok, kv_lockedPc_eq_ok, kv_blockJustify_eq_ok]
  constructor
  · rintro ⟨highest, locked, hhighest, hlocked, hle, hjustifies⟩
    refine ⟨Option.isSome_iff_exists.mpr ⟨locked, hlocked⟩, highest, hhighest, fun pc hpc => ?_⟩
    cases hpc with
    | highestPc h => rw [Option.some.inj (h.symm.trans hhighest)]
    | lockedPc h => rwa [Option.some.inj (h.symm.trans hlocked)]
    | justify b h => exact hjustifies b pc h
  · rintro ⟨hlocked, highest, hhighest, hle⟩
    obtain ⟨locked, hlocked⟩ := Option.isSome_iff_exists.mp hlocked
    exact ⟨highest, locked, hhighest, hlocked, hle locked (.lockedPc hlocked),
      fun b justify h => hle justify (.justify b h)⟩

namespace HighestPcLeads

theorem initial {appState : AppStateUpdates} {vss : ValidatorSetState} :
    HighestPcLeads (BlockTree.initial appState vss) := by
  refine highestPcLeads_iff.mpr ⟨congrArg Option.isSome BlockTree.initial_lockedPc, .genesisPc,
    BlockTree.initial_highestPc, fun pc hpc => ?_⟩
  rw [keepsPc_initial hpc]

theorem congr (h : HighestPcLeads s) (hhighest : s' .highestPc = s .highestPc)
    (hlocked : s' .lockedPc = s .lockedPc)
    (hjustify : ∀ b, s' (.blockJustify b) = s (.blockJustify b)) : HighestPcLeads s' := by
  obtain ⟨hsome, highest, hstored, hle⟩ := highestPcLeads_iff.mp h
  exact highestPcLeads_iff.mpr ⟨hlocked ▸ hsome, highest, hhighest.trans hstored,
    fun pc hpc => hle pc (hpc.congr hhighest hlocked hjustify)⟩

/-- Acting upon `justify` makes up for `justify` being ahead, as the highest PC is raised
together with the lock. -/
theorem of_update (hlocked : (s .lockedPc).isSome = true) {highest : PhaseCertificate}
    (hhighest : s .highestPc = some highest)
    (hle : ∀ pc, KeepsPc s pc → pc.view ≤ highest.view ∨ pc = justify)
    (hupdate : s.updateBatch fuel justify = .ok (wb, updates)) : HighestPcLeads (s.write wb) := by
  obtain ⟨locked, hlocked⟩ := Option.isSome_iff_exists.mp hlocked
  obtain ⟨locked', hlocked', -⟩ := BlockTree.lockedPc_update hlocked hupdate
  obtain ⟨highest', hstored, hnew⟩ := BlockTree.highestPc_update hupdate
  obtain rfl := Option.some.inj (hhighest.symm.trans hstored)
  have hbounds : highest.view ≤ (if highest.view < justify.view then justify else highest).view ∧
      justify.view ≤ (if highest.view < justify.view then justify else highest).view := by
    split
    · rename_i hlt
      exact ⟨hlt.le, le_rfl⟩
    · rename_i hnot
      exact ⟨le_rfl, not_lt.mp hnot⟩
  refine highestPcLeads_iff.mpr ⟨by rw [hlocked']; rfl, _, hnew, fun pc hpc => ?_⟩
  rcases keepsPc_update hupdate hpc with hkept | rfl
  · rcases hle pc hkept with hbelow | rfl
    · exact hbelow.trans hbounds.1
    · exact hbounds.2
  · exact hbounds.2

theorem update (h : HighestPcLeads s) (hupdate : s.updateBatch fuel justify = .ok (wb, updates)) :
    HighestPcLeads (s.write wb) := by
  obtain ⟨hlocked, highest, hhighest, hle⟩ := highestPcLeads_iff.mp h
  exact of_update hlocked hhighest (fun pc hpc => .inl (hle pc hpc)) hupdate

/-- A block is inserted, and then its justify is acted upon. -/
theorem updateInserted (h : HighestPcLeads s) {block : Block}
    {appStateUpdates : Option AppStateUpdates} {validatorSetUpdates : Option ValidatorSetUpdates}
    (hupdate : (s.insert block appStateUpdates validatorSetUpdates).updateBatch fuel block.justify =
      .ok (wb, updates)) :
    HighestPcLeads ((s.insert block appStateUpdates validatorSetUpdates).write wb) := by
  obtain ⟨hlocked, highest, hhighest, hle⟩ := highestPcLeads_iff.mp h
  have hlocked' : (s.insert block appStateUpdates validatorSetUpdates .lockedPc).isSome = true := by
    rwa [BlockTree.insert_of_block?_eq_none (v := .lockedPc) rfl (by simp)]
  have hhighest' : s.insert block appStateUpdates validatorSetUpdates .highestPc = some highest := by
    rwa [BlockTree.insert_of_block?_eq_none (v := .highestPc) rfl (by simp)]
  exact of_update hlocked' hhighest' (fun pc hpc => (keepsPc_insert hpc).imp_left (hle pc)) hupdate

end HighestPcLeads

/-! ## Runs -/

/-- The last event of `log` was to insert a block. -/
def InsertsLast (log : List Event) : Prop :=
  ∃ before wb, log = before ++ [.effect (.write wb)] ∧ WriteBatch.Inserts wb

/-- The highest PC leads at `p`, unless there was a crash before. -/
def LeadsUnlessCrashed (s₀ : BlockTree) (p : Point) : Prop :=
  Event.crash ∈ p.past ∨ HighestPcLeads (p.tree s₀)

namespace LeadsUnlessCrashed

variable {p : Point}

theorem emit (h : LeadsUnlessCrashed s₀ p) {e : Replica.Effect}
    (hkept : HighestPcLeads (p.tree s₀) → HighestPcLeads (Store.perform (p.tree s₀) e)) :
    LeadsUnlessCrashed s₀ (p.emit e) := by
  rw [LeadsUnlessCrashed, Point.past_emit, Point.tree_emit]
  exact h.imp (List.mem_append_left _) hkept

theorem tell (h : LeadsUnlessCrashed s₀ p) (updates : Option ValidatorSetUpdates) :
    LeadsUnlessCrashed s₀ (p.tell updates) := by
  cases updates with
  | none => exact h
  | some updates => exact h.emit id

theorem update (h : LeadsUnlessCrashed s₀ p)
    (hupdate : (p.tree s₀).updateBatch fuel justify = .ok (wb, updates)) :
    LeadsUnlessCrashed s₀ (p.emit (.write wb)) :=
  h.emit fun hleads => hleads.update hupdate

theorem updateInserted (h : LeadsUnlessCrashed s₀ p) {block : Block}
    {appStateUpdates : Option AppStateUpdates} {validatorSetUpdates : Option ValidatorSetUpdates}
    (hupdate : ((p.tree s₀).insert block appStateUpdates validatorSetUpdates).updateBatch fuel
      block.justify = .ok (wb, updates)) :
    LeadsUnlessCrashed s₀ ((p.emit (.write ((p.tree s₀).insertBatch block appStateUpdates
      validatorSetUpdates))).emit (.write wb)) := by
  rw [LeadsUnlessCrashed, Point.past_emit, Point.past_emit, Point.tree_emit, Point.tree_emit]
  refine h.imp (fun hcrash => ?_) fun hleads => hleads.updateInserted hupdate
  exact List.mem_append_left _ (List.mem_append_left _ hcrash)

/-- A note is about no phase certificate. -/
theorem note (h : LeadsUnlessCrashed s₀ p) {v : Var} {x : v.Val} (hhighest : v ≠ .highestPc)
    (hlocked : v ≠ .lockedPc) (hjustify : ∀ b, v ≠ .blockJustify b) :
    LeadsUnlessCrashed s₀ (p.emit (.write [.set v x])) :=
  h.emit fun hleads => hleads.congr (Store.apply_of_ne _ hhighest.symm)
    (Store.apply_of_ne _ hlocked.symm) fun b => Store.apply_of_ne _ (hjustify b).symm

end LeadsUnlessCrashed

/-- Without a crash, every move leaves the highest PC in the lead, but for the one that inserts
a block, whose justify is acted upon next. -/
def highestPcLeads (cr : Crypto) (config : Configuration) (apps : App → Prop) (s₀ : BlockTree)
    (hs₀ : HighestPcLeads s₀) : RunInvariant cr config apps s₀ where
  Open p _ := LeadsUnlessCrashed s₀ p
  Halt p := LeadsUnlessCrashed s₀ p ∨ InsertsLast p.past
  Quiet _ := True
  Admits _ := True
  start _ := .inr hs₀
  next h _ := by rwa [LeadsUnlessCrashed, Point.past_next, Point.tree_next]
  halt h := .inl h
  crash _ _ _ := .inl (by simp)
  act h _ := h.emit id
  enterView h := h.note (by simp) (by simp) (by simp)
  record h := h.note (by simp) (by simp) (by simp)
  insert _ _ _ _ _ :=
    .inr ⟨_, _, Point.past_emit _ _, _, BlockTree.mem_insertBatch.mpr .newestBlock⟩
  updateInserted h _ _ _ _ hupdate :=
    ⟨.inl (h.updateInserted hupdate), (h.updateInserted hupdate).tell _⟩
  accept h _ _ hupdate := ⟨.inl (h.update hupdate), (h.update hupdate).tell _⟩
  synced h _ _ _ hupdate := h.update hupdate
  follow h _ := h
  newView h _ := h
  collect h _ _ := ⟨h, fun _ _ => h.note (by simp) (by simp) (by simp)⟩
  receiveTc h _ _ := h.note (by simp) (by simp) (by simp)

namespace Protocol

/-- In every run without a crash the highest PC is not behind the lock or the justify of a block
between two iterations, nor at any point within one, except where a block was inserted last. -/
theorem highest_pc_leads {appState : AppStateUpdates} {vss : ValidatorSetState}
    (hcrash : Event.crash ∉ log) :
    (∀ r, Run cr config apps (BlockTree.initial appState vss) log r → HighestPcLeads r.tree) ∧
    (History cr config apps (BlockTree.initial appState vss) log →
      HighestPcLeads ((BlockTree.initial appState vss).replay log) ∨ InsertsLast log) := by
  let I := highestPcLeads cr config apps (BlockTree.initial appState vss) .initial
  have hsuffices : I.Suffices fun _ _ _ _ => True :=
    RunInvariant.suffices_of_tree (Q := fun _ _ => True) (fun _ => trivial) fun _ _ => id
  constructor
  · intro r run
    obtain ⟨-, htree, hopen⟩ := RunInvariant.isOpen_of_run hsuffices run.under
    have hopen : LeadsUnlessCrashed (BlockTree.initial appState vss) ⟨log, []⟩ := hopen
    rw [htree]
    refine hopen.resolve_left fun hmem => hcrash ?_
    simpa [Point.past] using hmem
  · intro h
    obtain ⟨p, rfl, hhalt⟩ := RunInvariant.halt_of_history hsuffices h.under
    have hhalt : LeadsUnlessCrashed (BlockTree.initial appState vss) p ∨ InsertsLast p.past := hhalt
    rw [← Point.tree_eq]
    exact hhalt.imp_left fun hleads => hleads.resolve_left hcrash

/-- Whether there is no crash among some events. -/
def crashFree (log : List Event) : Bool := log.all fun
  | .effect _ => true
  | .crash => false

/-- After three views the replica is locked on the certificate of the first, and the highest PC
is that of the second. -/
def locksBehind (log : List Event) (r : Replica) : Bool :=
  crashFree log && r.tree .highestPc == some (Sample.certify 2 Sample.block₁.hash .generic) &&
    r.tree .lockedPc == some (Sample.certify 1 Sample.block₀.hash .generic)

set_option maxRecDepth 100000 in
theorem checks_locksBehind : Replica.checks Sample.crypto (Sample.configuration 3) Sample.tree 20
    (fun _ _ => true) Sample.firstThreeViews locksBehind = true := by
  decide +kernel

theorem highest_pc_leads_three_views : ∃ log r,
    Run Sample.crypto (Sample.configuration 3) (· = Sample.app) Sample.tree log r ∧
    Event.crash ∉ log ∧
    r.tree .lockedPc = some (Sample.certify 1 Sample.block₀.hash .generic) ∧
    HighestPcLeads r.tree := by
  obtain ⟨log, r, run, hbehind⟩ := @exists_runUnder_of_checks _ _ (· = Sample.app) _
    (fun _ _ _ _ => True) _ _ _ _ Sample.app_firstThreeViews (fun _ _ _ _ _ => trivial)
    checks_locksBehind
  simp only [locksBehind, crashFree, Bool.and_eq_true, beq_iff_eq, List.all_eq_true] at hbehind
  have hcrash : Event.crash ∉ log := fun hmem => Bool.false_ne_true (hbehind.1.1 _ hmem)
  exact ⟨log, r, run.run, hcrash, hbehind.2, (highest_pc_leads hcrash).1 r run.run⟩

end Protocol
end HotStuffRs
