import HotStuffRs.BlockSync.Blacklist
import HotStuffRs.Replica.Heights

/-
Arithmetic on views and heights.

The numbers come from messages and are not checked before the handlers add to them or
subtract from them.
-/

namespace HotStuffRs

open Kv Kv.Process

/-! ## The operators -/

/-- `u64::MAX`. -/
def U64.max : U64 := ⟨2 ^ 64 - 1, by omega⟩

theorem U64.exists_add_one_iff {a : U64} : (∃ b, U64.add a 1 = .ok b) ↔ a ≠ U64.max := by
  have hmax : a = U64.max ↔ a.val = 2 ^ 64 - 1 := Fin.ext_iff
  rw [ne_eq, hmax]
  constructor
  · rintro ⟨b, hb⟩ ha
    have hval : a.val + 1 = b.val := U64.add_eq_ok.mp hb
    omega
  · intro ha
    refine ⟨⟨a.val + 1, by omega⟩, U64.add_eq_ok.mpr rfl⟩

theorem U64.add_eq_panic {a b : U64} (h : ¬∃ c, U64.add a b = .ok c) : U64.add a b = .error .panic := by
  unfold U64.add at h ⊢
  split
  · rename_i hlt
    rw [dif_pos hlt] at h
    exact (h ⟨_, rfl⟩).elim
  · rfl

theorem U64.exists_sub_of_le {a b : U64} (h : b ≤ a) : ∃ c, U64.sub a b = .ok c := by
  have hle : b.val ≤ a.val := h
  rw [U64.sub, dif_pos hle]
  exact ⟨_, rfl⟩

theorem U64.sub_one_eq_panic_iff {a : U64} : U64.sub a 1 = .error .panic ↔ a = 0 := by
  have hone : (1 : U64).val = 1 := rfl
  rw [Fin.ext_iff, U64.sub]
  split
  · rename_i hle
    simp only [reduceCtorEq, false_iff]
    show a.val ≠ 0
    omega
  · rename_i hlt
    simp only [true_iff]
    show a.val = 0
    omega

/-- The difference to a lower view is too large for an `i64` exactly if the lower view is
not negative as an `i64`, the higher one is, and they are less than `2 ^ 63` apart. -/
theorem ViewNumber.exists_difference_iff {a b : ViewNumber} (h : b ≤ a) :
    (∃ d, ViewNumber.difference a b = .ok d) ↔
      ¬(b.val < 2 ^ 63 ∧ 2 ^ 63 ≤ a.val ∧ a.val < 2 ^ 63 + b.val) := by
  have hle : b.val ≤ a.val := h
  have hsigned : ∀ x : ViewNumber, (BitVec.ofNat 64 x.val).toInt =
      if x.val < 2 ^ 63 then (x.val : Int) else x.val - 2 ^ 64 := by
    intro x
    rw [BitVec.toInt_eq_toNat_cond, BitVec.toNat_ofNat, Nat.mod_eq_of_lt x.isLt]
    split <;> split <;> omega
  have hrange : (-2 ^ 63 ≤ (BitVec.ofNat 64 a.val).toInt - (BitVec.ofNat 64 b.val).toInt ∧
      (BitVec.ofNat 64 a.val).toInt - (BitVec.ofNat 64 b.val).toInt < 2 ^ 63) ↔
      ¬(b.val < 2 ^ 63 ∧ 2 ^ 63 ≤ a.val ∧ a.val < 2 ^ 63 + b.val) := by
    rw [hsigned, hsigned]
    split <;> split <;> omega
  rw [← hrange]
  unfold ViewNumber.difference
  dsimp only
  by_cases hfits : -2 ^ 63 ≤ (BitVec.ofNat 64 a.val).toInt - (BitVec.ofNat 64 b.val).toInt ∧
      (BitVec.ofNat 64 a.val).toInt - (BitVec.ofNat 64 b.val).toInt < 2 ^ 63
  · rw [if_pos hfits]
    exact iff_of_true ⟨_, rfl⟩ hfits
  · rw [if_neg hfits]
    exact iff_of_false (fun ⟨_, hd⟩ => nomatch hd) hfits

theorem ViewNumber.difference_eq_panic {a b : ViewNumber}
    (h : ¬∃ d, ViewNumber.difference a b = .ok d) : ViewNumber.difference a b = .error .panic := by
  unfold ViewNumber.difference at h ⊢
  dsimp only at h ⊢
  split
  · rename_i hrange
    rw [if_pos hrange] at h
    exact (h ⟨_, rfl⟩).elim
  · rfl

/-! ## Where handlers calculate -/

/-- An addition or subtraction of views or heights, by the function that performs it. -/
inductive Calculation
  | safeNudge (nudge : Nudge)
  | blockToCommit (justify : PhaseCertificate)
  | reproposeBlock
  | propose
  | vote (justify : PhaseCertificate)
  | sendNewView (nextView : ViewNumber)
  | onReceiveAdvertisePc (client : BlockSyncClientState) (msg : AdvertisePC) (origin : VerifyingKey)
  | sendRequest
  | endSync (client : BlockSyncClientState) (peer : VerifyingKey)

/-- Whether a replica gets to vote upon `justify`. -/
def MayVote (config : Configuration) (s : BlockTree) (v : ViewNumber)
    (justify : PhaseCertificate) : Prop :=
  (∃ vss, s.kv.validatorSetState = .ok vss ∧ isPhaseVoter config.me vss justify = true) ∧
    (s .highestViewPhaseVoted).all (· < v) = true

/-- Whether the view of an advertised PC is compared to `entered`, the highest view entered. -/
def Compares (s : BlockTree) (client : BlockSyncClientState) (msg : AdvertisePC)
    (origin : VerifyingKey) (entered : ViewNumber) : Prop :=
  s.kv.highestViewEntered = .ok entered ∧
    ¬(client.blacklistContainsServerAddress origin ∨ msg.highestPc.view < entered)

namespace Calculation

variable (cr : Crypto) (config : Configuration) (s : BlockTree) (v : ViewNumber)

/-- In tree `s` and view `v`, a calculation that a handler gets to stays in range. -/
def InRange : Calculation → Prop
  | safeNudge nudge =>
    nudge.justify.isCorrect cr s = .ok true →
      s.safeNudge nudge v config.chainId ≠ .error .panic
  | blockToCommit justify => s.blockToCommit justify ≠ .error .panic
  | reproposeBlock => s.reproposeBlock v ≠ .error .panic
  | propose => ∀ highestPc parentHeight, s.kv.highestPc = .ok highestPc →
    s.kv.blockHeight highestPc.block = .ok (some parentHeight) →
      ∃ childHeight, U64.add parentHeight 1 = .ok childHeight
  | vote justify => MayVote config s v justify → ∃ next, U64.add v 1 = .ok next
  | sendNewView nextView => v < nextView → ∃ next, U64.add v 1 = .ok next
  | onReceiveAdvertisePc client msg origin => ∀ entered, Compares s client msg origin entered →
    ∃ d, ViewNumber.difference msg.highestPc.view entered = .ok d
  | sendRequest => ∀ height, s.kv.highestCommittedBlockHeight = .ok (some height) →
    ∃ startHeight, U64.add height 1 = .ok startHeight
  | endSync client peer => ∀ minHeight advertised,
    s.kv.highestCommittedBlockHeight = .ok minHeight → peer ∈ client.syncServers minHeight →
      client.availableSyncServers[peer]? = some advertised →
        ∃ minBlocksExpected, U64.sub advertised (minHeight.getD 0) = .ok minBlocksExpected

/-- The numbers that a calculation is made on are small enough, or large enough. -/
def Fits : Calculation → Prop
  | safeNudge nudge =>
    nudge.justify.isCorrect cr s = .ok true → s.safePc nudge.justify config.chainId = .ok true →
      nudge.chainId = config.chainId →
        nudge.justify.phase = .prepare ∨ nudge.justify.phase = .precommit → v ≠ 0
  | vote justify => MayVote config s v justify → v ≠ U64.max
  | onReceiveAdvertisePc client msg origin => ∀ entered, Compares s client msg origin entered →
    ¬(entered.val < 2 ^ 63 ∧ 2 ^ 63 ≤ msg.highestPc.view.val ∧
      msg.highestPc.view.val < 2 ^ 63 + entered.val)
  | blockToCommit _ | reproposeBlock | propose | sendNewView _ | sendRequest | endSync .. => True

end Calculation

namespace BlockTree

/-! ## What panics -/

variable {s : BlockTree} {v : ViewNumber}

theorem failsIn_expect (v : Var) (key : Key) :
    Result.FailsIn (· ≠ .panic) (s.kv.expect v key) :=
  KVGet.failsIn_expect (fun _ => by simp) v key

theorem failsIn_extendsLockedPcBlock (pc : PhaseCertificate) :
    Result.FailsIn (· ≠ .panic) (s.extendsLockedPcBlock pc) :=
  Result.failsIn_bind (failsIn_expect _ _) fun _ _ => Result.failsIn_ok _

theorem failsIn_safePc (pc : PhaseCertificate) (chainId : ChainID) :
    Result.FailsIn (· ≠ .panic) (s.safePc pc chainId) := by
  unfold safePc
  split
  · exact Result.failsIn_ok _
  split
  · exact Result.failsIn_ok _
  refine Result.failsIn_bind (failsIn_expect _ _) fun locked _ => ?_
  have hrest : ∀ satisfiesLock : Bool, Result.FailsIn (· ≠ .panic)
      (if !satisfiesLock then (.ok false : Result Bool) else do
        let status ← s.kv.validatorSetUpdatesStatus pc.block
        return ((pc.phase.isPrepare || pc.phase.isPrecommit || pc.phase.isCommit ||
            pc.phase.isDecide) && status.containsUpdates) ||
          (pc.phase.isGeneric && !status.containsUpdates)) := by
    intro satisfiesLock
    rw [kv_validatorSetUpdatesStatus]
    split
    · exact Result.failsIn_ok _
    · exact Result.failsIn_ok _
  split
  · exact hrest true
  · exact Result.failsIn_bind (failsIn_extendsLockedPcBlock pc) fun _ _ => hrest _

/-- Only the subtraction in `safe_nudge` panics. -/
theorem safeNudge_eq_panic_iff {nudge : Nudge} {chainId : ChainID} :
    s.safeNudge nudge v chainId = .error .panic ↔
      s.safePc nudge.justify chainId = .ok true ∧ nudge.chainId = chainId ∧
        (nudge.justify.phase = .prepare ∨ nudge.justify.phase = .precommit) ∧ v = 0 := by
  rw [← U64.sub_one_eq_panic_iff]
  unfold safeNudge
  cases hsafe : s.safePc nudge.justify chainId with
  | error e =>
    have hne : e ≠ .panic := failsIn_safePc _ _ e hsafe
    simp [hne]
  | ok isSafe =>
    cases isSafe with
    | false => simp
    | true =>
      rw [Result.ok_bind]
      by_cases hchain : nudge.chainId = chainId
      · cases hphase : nudge.justify.phase with
        | generic | decide => simp [PhaseCertificate.isNudgeJustify, hphase]
        | commit => simp [PhaseCertificate.isNudgeJustify, hphase, hchain]
        | prepare | precommit =>
          cases U64.sub v 1 <;> simp [PhaseCertificate.isNudgeJustify, hphase, hchain]
      · simp [hchain]

/-- One can be added to the height of `b` and to the view of its justify. -/
structure BoundedAt (s : BlockTree) (b : CryptoHash) : Prop where
  height : ∀ height, s (.blockHeight b) = some height → height ≠ U64.max
  justify : ∀ justify, s (.blockJustify b) = some justify → justify.view ≠ U64.max

theorem BoundedAt.of_kept {s' : BlockTree} {b : CryptoHash} (h : s.BoundedAt b)
    (hheight : s' (.blockHeight b) = s (.blockHeight b) ∨ s' (.blockHeight b) = none)
    (hjustify : s' (.blockJustify b) = s (.blockJustify b) ∨ s' (.blockJustify b) = none) :
    s'.BoundedAt b where
  height height hb := by
    rcases hheight with hkept | hgone
    · exact h.height height (hkept ▸ hb)
    · rw [hgone] at hb
      cases hb
  justify justify hb := by
    rcases hjustify with hkept | hgone
    · exact h.justify justify (hkept ▸ hb)
    · rw [hgone] at hb
      cases hb

/-- The views and heights that are stored can be added to. -/
structure BoundedNumbers (s : BlockTree) : Prop where
  blocks : ∀ b, s.BoundedAt b
  highestPc : ∀ pc, s .highestPc = some pc → (pc.phase = .prepare ∨ pc.phase = .precommit) →
    pc.view ≠ U64.max

theorem failsIn_add_one {a : U64} (h : a ≠ U64.max) : Result.FailsIn (· ≠ .panic) (U64.add a 1) := by
  obtain ⟨b, hb⟩ := U64.exists_add_one_iff.mpr h
  rw [hb]
  exact Result.failsIn_ok b

theorem failsIn_notCommittedYet (b : CryptoHash) :
    Result.FailsIn (· ≠ .panic) (s.notCommittedYet b) := by
  unfold notCommittedYet
  rw [kv_blockHeight, Result.ok_bind]
  cases s (.blockHeight b) with
  | none => exact Result.failsIn_error (by simp)
  | some height =>
    rw [kv_highestCommittedBlockHeight]
    exact Result.failsIn_ok _

namespace BoundedNumbers

variable (hs : s.BoundedNumbers)
include hs

theorem failsIn_blockToCommit (justify : PhaseCertificate) :
    Result.FailsIn (· ≠ .panic) (s.blockToCommit justify) := by
  unfold blockToCommit
  split
  · exact Result.failsIn_ok _
  split
  · refine Result.failsIn_bind (failsIn_expect _ _) fun parentJustify hparent => ?_
    split
    · exact Result.failsIn_ok _
    refine Result.failsIn_bind (failsIn_expect _ _) fun grandparentJustify hgrandparent => ?_
    split
    · exact Result.failsIn_ok _
    refine Result.failsIn_bind (failsIn_add_one ((hs.blocks _).justify _ (kv_blockJustify_eq_ok.mp hparent)))
      fun afterParent _ => ?_
    have hrest : ∀ satisfied : Bool, Result.FailsIn (· ≠ .panic) (do
        let notCommittedYet ← s.notCommittedYet grandparentJustify.block
        return if satisfied && notCommittedYet then some grandparentJustify.block else none) :=
      fun _ => Result.failsIn_bind (failsIn_notCommittedYet _) fun _ _ => Result.failsIn_ok _
    split
    · exact Result.failsIn_bind (failsIn_add_one
        ((hs.blocks _).justify _ (kv_blockJustify_eq_ok.mp hgrandparent))) fun _ _ => hrest _
    · exact hrest false
  · exact Result.failsIn_ok _
  · exact Result.failsIn_ok _
  · exact Result.failsIn_bind (failsIn_notCommittedYet _) fun _ _ => Result.failsIn_ok _
  · exact Result.failsIn_bind (failsIn_notCommittedYet _) fun _ _ => Result.failsIn_ok _

theorem failsIn_reproposeBlock : Result.FailsIn (· ≠ .panic) (s.reproposeBlock v) := by
  unfold reproposeBlock
  refine Result.failsIn_bind (failsIn_expect _ _) fun highestPc hhighest => ?_
  have hview := hs.highestPc highestPc (kv_highestPc_eq_ok.mp hhighest)
  cases hphase : highestPc.phase with
  | prepare =>
    exact Result.failsIn_bind (failsIn_add_one (hview (.inl hphase))) fun _ _ => Result.failsIn_ok _
  | precommit =>
    exact Result.failsIn_bind (failsIn_add_one (hview (.inr hphase))) fun _ _ => Result.failsIn_ok _
  | generic | commit | decide => exact Result.failsIn_ok _

end BoundedNumbers

end BlockTree

/-- A server is chosen only if what it advertised is not below the highest committed block. -/
theorem getD_le_of_mem_syncServers {client : BlockSyncClientState} {minHeight : Option BlockHeight}
    {peer : VerifyingKey} {advertised : BlockHeight} (h : peer ∈ client.syncServers minHeight)
    (hadvertised : client.availableSyncServers[peer]? = some advertised) :
    minHeight.getD 0 ≤ advertised := by
  obtain ⟨⟨peer', height⟩, hmem, rfl⟩ := List.mem_map.mp h
  obtain ⟨hserver, hheight⟩ := List.mem_filter.mp hmem
  rw [Std.ExtTreeMap.mem_toList_iff_getElem?_eq_some] at hserver
  obtain rfl := Option.some.inj (hserver.symm.trans hadvertised)
  cases minHeight with
  | none => exact Fin.zero_le _
  | some minHeight => simpa using hheight

namespace Calculation

variable {cr : Crypto} {config : Configuration} {s : BlockTree} {v : ViewNumber}

/-- Where the stored numbers can be added to, a calculation stays in range exactly if the
numbers fit that it takes from elsewhere. -/
theorem inRange_iff_fits (hs : s.BoundedNumbers) {c : Calculation} :
    c.InRange cr config s v ↔ c.Fits cr config s v := by
  cases c with
  | safeNudge nudge =>
    simp only [InRange, Fits, ne_eq, BlockTree.safeNudge_eq_panic_iff]
    tauto
  | blockToCommit justify =>
    exact iff_of_true (fun h => hs.failsIn_blockToCommit justify _ h rfl) trivial
  | reproposeBlock => exact iff_of_true (fun h => hs.failsIn_reproposeBlock _ h rfl) trivial
  | propose =>
    refine iff_of_true (fun highestPc parentHeight _ hheight => ?_) trivial
    exact U64.exists_add_one_iff.mpr ((hs.blocks _).height _ (Except.ok.inj hheight))
  | vote justify =>
    simp only [InRange, Fits, U64.exists_add_one_iff]
  | sendNewView nextView =>
    refine iff_of_true (fun hlt => U64.exists_add_one_iff.mpr ?_) trivial
    rintro rfl
    have hval : U64.max.val < nextView.val := hlt
    have hmax : U64.max.val = 2 ^ 64 - 1 := rfl
    omega
  | onReceiveAdvertisePc client msg origin =>
    refine forall_congr' fun entered => forall_congr' fun hcompares => ?_
    exact ViewNumber.exists_difference_iff (not_lt.mp fun hlt => hcompares.2 (.inr hlt))
  | sendRequest =>
    refine iff_of_true (fun height hheight => U64.exists_add_one_iff.mpr ?_) trivial
    rw [kv_highestCommittedBlockHeight, Except.ok.injEq] at hheight
    obtain ⟨b, -, hb⟩ := Option.bind_eq_some_iff.mp hheight
    exact (hs.blocks b).height height hb
  | endSync client peer =>
    refine iff_of_true (fun minHeight advertised _ hpeer hadvertised => ?_) trivial
    exact U64.exists_sub_of_le (getD_le_of_mem_syncServers hpeer hadvertised)

/-! ## A calculation out of range ends its handler -/

theorem onReceiveNudge_panics {w : World HotStuff Action Var.Val} {nudge : Nudge}
    (hconfig : w.mem.config.chainId = config.chainId)
    (h : ¬(safeNudge nudge).InRange cr config w.tree w.mem.viewInfo.view) (fuel : Nat)
    (origin : VerifyingKey) : HotStuff.onReceiveNudge cr fuel nudge origin w = .error .panic w := by
  simp only [InRange, ne_eq, Classical.not_imp, not_not, ← hconfig] at h
  unfold HotStuff.onReceiveNudge
  rw [mem_bind_run, store_bind_run, h.1, lift_ok_bind_run, if_pos rfl, h.2]
  rfl

theorem vote_panics {w : World HotStuff Action Var.Val} {justify : PhaseCertificate}
    {vss : ValidatorSetState} (hconfig : w.mem.config.me = config.me)
    (hvss : (Store.kv w.tree).validatorSetState = .ok vss)
    (h : ¬(vote justify).InRange cr config w.tree w.mem.viewInfo.view) (block : CryptoHash)
    (phase : Phase) : HotStuff.vote cr vss justify block phase w = .error .panic w := by
  simp only [InRange, Classical.not_imp] at h
  obtain ⟨⟨⟨vss', hvss', hvoter⟩, hfirst⟩, hnext⟩ := h
  obtain rfl := Except.ok.inj (hvss.symm.trans hvss')
  rw [← hconfig] at hvoter
  unfold HotStuff.vote
  rw [mem_bind_run, store_bind_run, if_pos hvoter, kv_highestViewPhaseVoted, lift_ok_bind_run,
    if_pos hfirst]
  have hrecipient : phaseVoteRecipient (PhaseVote.new cr w.mem.config.me w.mem.config.chainId
      w.mem.viewInfo.view block phase) vss = .error .panic := by
    unfold phaseVoteRecipient
    rw [show U64.add (PhaseVote.new cr w.mem.config.me w.mem.config.chainId w.mem.viewInfo.view
      block phase).view 1 = .error .panic from U64.add_eq_panic hnext, Result.error_bind]
  rw [hrecipient]
  rfl

theorem onReceiveAdvertisePc_panics {w : World BlockSyncClient Action Var.Val} {msg : AdvertisePC}
    {origin : VerifyingKey}
    (h : ¬(onReceiveAdvertisePc w.mem.state msg origin).InRange cr config w.tree v) (app : App)
    (fuel : Nat) (now : Instant) (choice : Nat) (responses : List BlockSyncResponse) :
    BlockSyncClient.onReceiveAdvertisePc cr app fuel now msg origin choice responses w =
      .error .panic w := by
  simp only [InRange, not_forall] at h
  obtain ⟨entered, ⟨hentered, hcompared⟩, hd⟩ := h
  unfold BlockSyncClient.onReceiveAdvertisePc
  rw [mem_bind_run, store_bind_run, hentered, lift_ok_bind_run, if_neg hcompared,
    ViewNumber.difference_eq_panic hd]
  rfl

theorem sendRequest_panics {w : World BlockSyncClient Action Var.Val}
    (h : ¬sendRequest.InRange cr config w.tree v) (peer : VerifyingKey) :
    BlockSyncClient.sendRequest peer w = .error .panic w := by
  simp only [InRange, not_forall] at h
  obtain ⟨height, hheight, hstart⟩ := h
  unfold BlockSyncClient.sendRequest
  rw [mem_bind_run, store_bind_run, hheight, lift_ok_bind_run]
  dsimp only
  rw [U64.add_eq_panic hstart]
  rfl

end Calculation

/-- What is asked of a block that is inserted. -/
def Block.Bounded (block : Block) : Prop :=
  block.height ≠ U64.max ∧ block.justify.view ≠ U64.max

namespace Protocol

open BlockTree

variable {cr : Crypto} {config : Configuration} {apps : App → Prop}

/-- In the course of `log` the highest PC becomes `pc`. -/
def Raises (log : List Event) (pc : PhaseCertificate) : Prop :=
  ∃ wb, .effect (.write wb) ∈ log ∧ .set .highestPc pc ∈ wb

theorem boundedNumbers_of_history {appState : AppStateUpdates} {vss : ValidatorSetState}
    {log : List Event} (h : History cr config apps (initial appState vss) log)
    (hinserted : Inserted (initial appState vss) (fun _ block _ => block.Bounded) log)
    (hraised : ∀ pc, Raises log pc → pc.phase = .prepare ∨ pc.phase = .precommit →
      pc.view ≠ U64.max) :
    BoundedNumbers ((initial appState vss).replay log) := by
  have hblocks : ∀ b, BoundedAt ((initial appState vss).replay log) b := by
    refine history_invariant (I := fun s => ∀ b, s.BoundedAt b) h hinserted ?_ ?_ ?_ ?_
    · intro b
      have hnone : ∀ v : Var, v.block? = some b → initial appState vss v = none :=
        fun _ => initial_of_block?
      exact ⟨by simp [hnone (.blockHeight b) rfl], by simp [hnone (.blockJustify b) rfl]⟩
    · intro s block appStateUpdates validatorSetUpdates app hs _ _ _ _ hblock b
      by_cases hb : b = block.hash
      · subst hb
        refine ⟨fun height hheight => ?_, fun justify hjustify => ?_⟩
        · rw [height_insert, Option.some.injEq] at hheight
          exact hheight ▸ hblock.1
        · rw [justify_insert, Option.some.injEq] at hjustify
          exact hjustify ▸ hblock.2
      · exact (hs b).of_kept (.inl (field_insert_of_ne rfl rfl hb))
          (.inl (field_insert_of_ne rfl rfl hb))
    · intro s justify fuel wb updates hs hupdate b
      exact (hs b).of_kept (field_write_update hupdate rfl) (field_write_update hupdate rfl)
    · intro s v x hs hv b
      exact (hs b).of_kept (.inl (block_note hv rfl)) (.inl (block_note hv rfl))
  refine ⟨hblocks, fun pc hpc hphase => ?_⟩
  rcases replay_eq_some hpc with hinitial | hset
  · obtain rfl := Option.some.inj (initial_highestPc.symm.trans hinitial)
    rcases hphase with hphase | hphase <;> cases hphase
  · exact hraised pc hset hphase

/-- In a run that inserts no block and raises no highest PC with numbers that cannot be added
to, a calculation stays in range exactly if the numbers fit that it takes from the message
or from the current view. -/
theorem numbers_in_range_iff {appState : AppStateUpdates} {vss : ValidatorSetState}
    {log : List Event} (h : History cr config apps (initial appState vss) log)
    (hinserted : Inserted (initial appState vss) (fun _ block _ => block.Bounded) log)
    (hraised : ∀ pc, Raises log pc → pc.phase = .prepare ∨ pc.phase = .precommit →
      pc.view ≠ U64.max) (v : ViewNumber) (c : Calculation) :
    c.InRange cr config ((initial appState vss).replay log) v ↔
      c.Fits cr config ((initial appState vss).replay log) v :=
  Calculation.inRange_iff_fits (boundedNumbers_of_history h hinserted hraised)

/-! ## Two advertised views -/

/-- Whether an operation sets numbers that can be added to, and no highest PC in the phased
mode. -/
def boundedOp : Op Var.Val → Bool
  | .set (.blockHeight _) height => height != U64.max
  | .set (.blockJustify _) justify => justify.view != U64.max
  | .set .highestPc pc => pc.phase != .prepare && pc.phase != .precommit
  | _ => true

theorem inserted_of_boundedOp {s₀ : BlockTree} {log : List Event}
    (h : checkLog (fun _ wb => wb.all boundedOp) s₀ log = true) :
    Inserted s₀ (fun _ block _ => block.Bounded) log := by
  intro before block appStateUpdates validatorSetUpdates hlog
  have hwrite := List.all_eq_true.mp (check_of_checkLog h hlog)
  have hset : ∀ o ∈ WriteBatch.setBlock block, boundedOp o = true :=
    fun o ho => hwrite o (mem_insertBatch.mpr (.block ho))
  constructor
  · simpa [boundedOp] using hset (.set (.blockHeight block.hash) block.height)
      (by simp [WriteBatch.setBlock])
  · simpa [boundedOp] using hset (.set (.blockJustify block.hash) block.justify)
      (by simp [WriteBatch.setBlock])

theorem raised_of_boundedOp {s₀ : BlockTree} {log : List Event}
    (h : checkLog (fun _ wb => wb.all boundedOp) s₀ log = true) (pc : PhaseCertificate)
    (hraised : Raises log pc) : ¬(pc.phase = .prepare ∨ pc.phase = .precommit) := by
  obtain ⟨wb, hwb, hset⟩ := hraised
  obtain ⟨before, rest, rfl⟩ := List.append_of_mem hwb
  have hlog : before ++ [.effect (.write wb)] <+: before ++ .effect (.write wb) :: rest :=
    ⟨rest, by rw [List.append_assoc, List.singleton_append]⟩
  have hphase := List.all_eq_true.mp (check_of_checkLog h hlog) _ hset
  simpa [boundedOp] using hphase

set_option maxRecDepth 100000 in
theorem checks_firstThreeViews_bounded : Replica.checks Sample.crypto (Sample.configuration 3)
    Sample.tree 20 (fun _ _ => true) Sample.firstThreeViews (fun log r =>
      checkLog (fun _ wb => wb.all boundedOp) Sample.tree log &&
        r.tree .highestViewEntered == some 3) = true := by
  decide +kernel

/-- A replica that has entered view 3 compares any advertised view from there on to it. -/
theorem compares_sample {s : BlockTree} (hentered : s .highestViewEntered = some 3)
    {msg : AdvertisePC} (hview : 3 ≤ msg.highestPc.view) (origin : VerifyingKey) :
    Compares s (.initial 0) msg origin 3 := by
  refine ⟨kv_highestViewEntered_eq_ok.mpr hentered, ?_⟩
  rintro (hblacklisted | hlt)
  · cases hblacklisted
  · exact hlt.not_ge hview

theorem exists_history_bounded : ∃ log,
    History Sample.crypto (Sample.configuration 3) (· = Sample.app) Sample.tree log ∧
    checkLog (fun _ wb => wb.all boundedOp) Sample.tree log = true ∧
    Sample.tree.replay log .highestViewEntered = some 3 := by
  obtain ⟨log, r, history, htree, hlog⟩ :=
    exists_history_of_checks Sample.app_firstThreeViews checks_firstThreeViews_bounded
  simp only [Bool.and_eq_true, beq_iff_eq] at hlog
  rw [htree] at hlog
  exact ⟨log, history, hlog⟩

/-- The view `2 ^ 63 - 1` is not too far ahead. -/
theorem numbers_in_range_iff_three_views : ∃ log,
    History Sample.crypto (Sample.configuration 3) (· = Sample.app) Sample.tree log ∧
    ∀ origin, (Calculation.onReceiveAdvertisePc (.initial 0)
      ⟨Sample.certify ⟨2 ^ 63 - 1, by omega⟩ 0 .generic⟩ origin).InRange Sample.crypto
      (Sample.configuration 3) (Sample.tree.replay log) 3 := by
  obtain ⟨log, history, hchecked, -⟩ := exists_history_bounded
  refine ⟨log, history, fun origin => (numbers_in_range_iff history
    (inserted_of_boundedOp hchecked) (fun pc hraised hphase =>
      (raised_of_boundedOp hchecked pc hraised hphase).elim) _ _).mpr ?_⟩
  rintro entered - ⟨-, hnegative, -⟩
  exact absurd hnegative (by decide)

/-- The view `2 ^ 63` is. -/
theorem numbers_leave_range : ¬∀ (cr : Crypto) (config : Configuration) (apps : App → Prop)
    (appState : AppStateUpdates) (vss : ValidatorSetState) (log : List Event),
    History cr config apps (initial appState vss) log → ∀ (v : ViewNumber) (c : Calculation),
      c.InRange cr config ((initial appState vss).replay log) v := by
  intro h
  obtain ⟨log, history, -, hentered⟩ := exists_history_bounded
  have hrange := h _ _ _ _ _ log history 3 (.onReceiveAdvertisePc (.initial 0)
    ⟨Sample.certify ⟨2 ^ 63, by omega⟩ 0 .generic⟩ 2) 3
    (compares_sample hentered (by decide) _)
  refine (ViewNumber.exists_difference_iff (by decide)).mp hrange ⟨?_, ?_, ?_⟩
  · decide
  · decide
  · decide

end Protocol

end HotStuffRs
