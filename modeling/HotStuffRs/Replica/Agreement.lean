import HotStuffRs.Replica.HighestPc
import HotStuffRs.Replica.Locked
import HotStuffRs.Replica.SyncServer
import HotStuffRs.Types.BlockHash

/-
Agreement.

Honest replicas commit the same blocks in the same order, whatever the others do and however
messages are delayed, lost or reordered.  This needs the validators to be fixed, and what the code
itself does not see to: that no honest replica gives up its lock, or forgets a vote in a crash.
-/

namespace HotStuffRs

open Kv Lts

variable {cr : Crypto} {apps : App → Prop} {s₀ : BlockTree} {honest : Finset VerifyingKey}
  {config : VerifyingKey → Configuration} {log : VerifyingKey → List Event}

/-! ## The votes that certificates are made of -/

theorem Protocol.votes_same_of_safe {config : Configuration} {log : List Event}
    (h : History cr config apps s₀ log)
    (hsafe : ∀ before, before ++ [.crash] <+: log → CrashesSafely s₀ before) {vote vote' : PhaseVote}
    (hvote : vote ∈ phaseVotes log) (hvote' : vote' ∈ phaseVotes log)
    (hview : vote.view = vote'.view) : vote = vote' := by
  obtain ⟨v₀, a, hv₀, path, -⟩ := history_path h
  have hascending := (votesInOrder_of_path hv₀ path hsafe).ascending
  have hviews : ((phaseVotes log).map PhaseVote.view).Nodup :=
    List.pairwise_map.mpr (hascending.imp fun hlt => hlt.ne)
  exact List.inj_on_of_nodup_map hviews hvote hvote' hview

theorem mem_phaseVotes {log : List Event} {a : Action} {vote : PhaseVote}
    (h : .effect (.act a) ∈ log) (ha : a.phaseVote? = some vote) : vote ∈ phaseVotes log :=
  List.mem_filterMap.mpr ⟨_, h, ha⟩

/-- Nothing but a phase vote is signed as one. -/
theorem mem_phaseVotes_of_signs {config : Configuration} {log : List Event} {chainId : ChainID}
    {view : ViewNumber} {block : CryptoHash} {phase : Phase}
    (h : Signs cr config s₀ log (phaseVoteBytes chainId view block phase)) :
    ∃ vote ∈ phaseVotes log, vote.view = view ∧ vote.block = block := by
  obtain ⟨msg, signed, hsends, hsigned, hbytes⟩ := h
  have hstatement : signed.statement = .phaseVote chainId view block phase := by
    have heq : Statement.bytes (.phaseVote chainId view block phase) = signed.statement.bytes := by
      rw [← SignedMessage.messageBytes_eq, ← hbytes]
      rfl
    rcases Statement.eq_or_confused heq with heq | hconfused
    · exact heq.symm
    · cases hconfused
  cases signed with
  | timeoutVote | advertiseBlock => cases hstatement
  | phaseVote vote =>
    obtain ⟨-, hview, hblock, -⟩ := Statement.phaseVote.inj hstatement
    obtain rfl : msg = .hotStuff (.phaseVote vote) := by
      unfold ProgressMessage.signed? at hsigned
      split at hsigned <;> cases hsigned
      rfl
    refine ⟨vote, ?_, hview, hblock⟩
    cases hsends with
    | send hmem => exact mem_phaseVotes hmem rfl
    | broadcast hmem => exact mem_phaseVotes hmem rfl

namespace Network

open Protocol

/-- `v` is honest, and votes for `block` in the view of that number. -/
def Votes (honest : Finset VerifyingKey) (log : VerifyingKey → List Event) (v : VerifyingKey)
    (view : Nat) (block : CryptoHash) : Prop :=
  v ∈ honest ∧ ∃ vote ∈ phaseVotes (log v), vote.view.val = view ∧ vote.block = block

variable (h : Network cr apps s₀ honest config log)
include h

theorem history' {v : VerifyingKey} (hv : v ∈ honest) : History cr (config v) apps s₀ (log v) := by
  obtain ⟨log', r, fuel, input, effects, run, happ, heffects, -, hlog⟩ := h.history v hv
  exact ⟨log', r, fuel, input, effects, run.run, happ, heffects, hlog⟩

/-- Two certificates share an honest voter. -/
theorem exists_common_voter {v : VerifyingKey} (hv : v ∈ honest) {vs : ValidatorSet}
    (hheld : Held s₀ (log v) vs) {pc pc' : PhaseCertificate}
    (hpc : pc.isCorrectlySigned cr vs = .ok true) (hpc' : pc'.isCorrectlySigned cr vs = .ok true) :
    ∃ u, Votes honest log u pc.view.val pc.block ∧ Votes honest log u pc'.view.val pc'.block := by
  obtain ⟨signers, hsub, hquorum, hsigned⟩ :=
    signers_of_isCorrectlySigned (fun v => Signs cr (config v) s₀ (log v)) hpc
  obtain ⟨signers', hsub', hquorum', hsigned'⟩ :=
    signers_of_isCorrectlySigned (fun v => Signs cr (config v) s₀ (log v)) hpc'
  obtain ⟨u, hu, hnot⟩ := Quorum.exists_honest_common (powerOf_le_third (h.power v hv vs hheld))
    hsub hsub' hquorum hquorum'
  obtain ⟨hmem, hmem'⟩ := Finset.mem_inter.mp hu
  have hhonest : u ∈ honest := by
    by_contra hout
    exact hnot (Finset.mem_sdiff.mpr ⟨hsub hmem, hout⟩)
  have hforge := h.unforgeable u hhonest
  obtain ⟨vote, hvote, hview, hblock⟩ := mem_phaseVotes_of_signs (hsigned u hmem hforge)
  obtain ⟨vote', hvote', hview', hblock'⟩ := mem_phaseVotes_of_signs (hsigned' u hmem' hforge)
  exact ⟨u, ⟨hhonest, vote, hvote, congrArg Fin.val hview, hblock⟩,
    ⟨hhonest, vote', hvote', congrArg Fin.val hview', hblock'⟩⟩

end Network

namespace Protocol

open BlockTree Forest

/-! ## The blocks of a network -/

open Classical in
/-- The justify of a block of the given hash. -/
noncomputable def justifyOf (blocks : Set Block) (b : CryptoHash) : Option PhaseCertificate :=
  if h : ∃ block ∈ blocks, block.hash = b then some h.choose.justify else none

theorem exists_of_justifyOf {blocks : Set Block} {b : CryptoHash} {j : PhaseCertificate}
    (h : justifyOf blocks b = some j) : ∃ block ∈ blocks, block.hash = b ∧ block.justify = j := by
  unfold justifyOf at h
  split at h
  · rename_i hex
    exact ⟨_, hex.choose_spec.1, hex.choose_spec.2, Option.some.inj h⟩
  · cases h

/-- The hash of a block binds what it is computed of, as far as SHA-256 has no collisions. -/
theorem hashedAlike_of_hash {blocks : Set Block} (hfree : Block.CollisionFree cr blocks)
    (hhash : ∀ block ∈ blocks,
      Block.hashOf cr block.height block.justify block.dataHash = .ok block.hash)
    {block block' : Block} (hblock : block ∈ blocks) (hblock' : block' ∈ blocks)
    (heq : block.hash = block'.hash) : Block.HashedAlike block block' := by
  obtain ⟨bytes, hbytes, hsha⟩ := Block.hashOf_eq_ok.mp (hhash block hblock)
  obtain ⟨bytes', hbytes', hsha'⟩ := Block.hashOf_eq_ok.mp (hhash block' hblock')
  have hsame : bytes = bytes' :=
    hfree ⟨_, hblock, hbytes⟩ ⟨_, hblock', hbytes'⟩ (hsha.trans (heq.trans hsha'.symm))
  subst hsame
  obtain ⟨hheight, hjustify, hdataHash⟩ := Block.hashInput_inj hbytes hbytes'
  exact ⟨hheight, hjustify, hdataHash⟩

theorem justifyOf_hash {blocks : Set Block} (hfree : Block.CollisionFree cr blocks)
    (hhash : ∀ block ∈ blocks,
      Block.hashOf cr block.height block.justify block.dataHash = .ok block.hash)
    {block : Block} (hblock : block ∈ blocks) :
    justifyOf blocks block.hash = some block.justify := by
  have hex : ∃ block' ∈ blocks, block'.hash = block.hash := ⟨block, hblock, rfl⟩
  rw [justifyOf, dif_pos hex,
    (hashedAlike_of_hash hfree hhash hex.choose_spec.1 hblock hex.choose_spec.2).justify]

/-- The blocks that honest replicas insert. -/
def insertedBlocks (cr : Crypto) (config : VerifyingKey → Configuration) (s₀ : BlockTree)
    (honest : Finset VerifyingKey) (log : VerifyingKey → List Event) : Set Block :=
  {block | ∃ v ∈ honest, Inserts cr (config v) s₀ (log v) block}

/-- The certificates of those blocks. -/
noncomputable abbrev certificatesOf (cr : Crypto) (config : VerifyingKey → Configuration)
    (s₀ : BlockTree) (honest : Finset VerifyingKey) (log : VerifyingKey → List Event)
    (vs : ValidatorSet) : Chained.Certificates CryptoHash PhaseCertificate :=
  certificates cr vs (justifyOf (insertedBlocks cr config s₀ honest log))

/-- Honest replicas crash safely and never give up a lock, the blocks that they insert are of
proper heights, and SHA-256 has no collisions on these. -/
structure Careful (cr : Crypto) (config : VerifyingKey → Configuration) (s₀ : BlockTree)
    (honest : Finset VerifyingKey) (log : VerifyingKey → List Event) : Prop where
  crash : ∀ v ∈ honest, ∀ before, before ++ [.crash] <+: log v → CrashesSafely s₀ before
  lock : ∀ v ∈ honest, NeverUnlocks s₀ (log v)
  above : ∀ v ∈ honest, Inserted s₀ (fun s block _ => s.InsertedAbove block) (log v)
  hash : Block.CollisionFree cr (insertedBlocks cr config s₀ honest log)

/-- A stored block was inserted. -/
theorem inserts_of_stored {appState : AppStateUpdates} {vss : ValidatorSetState}
    {config : Configuration} {log : List Event} {s : BlockTree}
    (path : Path (TreeStep cr config apps) (initial appState vss) log s) {b : CryptoHash}
    (hb : s.Stored b) : ∃ block, Inserts cr config (initial appState vss) log block ∧
      block.hash = b := by
  induction path with
  | nil => exact (not_stored_initial b hb).elim
  | @snoc log t e u path last ih =>
    have hbefore : ∀ {log' : List Event}, log <+: log' → t.Stored b → ∃ block,
        Inserts cr config (initial appState vss) log' block ∧ block.hash = b := by
      intro log' hlog hb
      obtain ⟨block, hblock, hhash⟩ := ih hb
      exact ⟨block, hblock.mono hlog, hhash⟩
    have hprefix : log <+: log ++ [e] := List.prefix_append ..
    cases last with
    | act => exact hbefore hprefix hb
    | crash => exact hbefore hprefix hb
    | @insert block appStateUpdates validatorSetUpdates app hcorrect hsafe =>
      rcases (stored_insert b).mp hb with rfl | hb
      · have htree := treePath_tree path
        subst htree
        exact ⟨block, ⟨log, _, _, List.prefix_rfl, hcorrect, hsafe⟩, rfl⟩
      · exact hbefore hprefix hb
    | @update justify fuel wb updates hupdate =>
      refine hbefore hprefix ?_
      rcases field_write_update hupdate (v := .blockJustify b) rfl with heq | hgone
      · rwa [Stored, heq] at hb
      · rw [Stored, hgone] at hb
        cases hb
    | note hv =>
      refine hbefore hprefix ?_
      rwa [Stored, block_note hv rfl] at hb

section

variable {appState : AppStateUpdates} {vss : ValidatorSetState}
  (h : Network cr apps (initial appState vss) honest config log)
  (hcareful : Careful cr config (initial appState vss) honest log)
include h hcareful

/-- The parent of an inserted block is genesis or was inserted before. -/
theorem parent_of_inserts {v : VerifyingKey} (hv : v ∈ honest) {log' : List Event} {block : Block}
    (hlog : log' <+: log v) (hblock : Inserts cr (config v) (initial appState vss) log' block) :
    block.hash ≠ 0 ∧ (block.justify = .genesisPc ∨ (block.justify.block ≠ 0 ∧
      ∃ before parent, before.length < log'.length ∧ before <+: log' ∧
        Inserts cr (config v) (initial appState vss) before parent ∧
        parent.hash = block.justify.block)) := by
  obtain ⟨before, appStateUpdates, validatorSetUpdates, hbefore, -, hsafe⟩ := hblock
  have hprefix : before <+: log' := (List.prefix_append ..).trans hbefore
  have path := treePath_of_prefix (h.history' hv) (List.IsPrefix.trans hprefix hlog)
  have habove := hcareful.above v hv
  have wf := wellFormed_of_treePath path wellFormed_initial
    fun before' block' appStateUpdates' validatorSetUpdates' hbefore' =>
      (habove before' block' appStateUpdates' validatorSetUpdates'
        (hbefore'.trans (List.IsPrefix.trans hprefix hlog))).fresh
  refine ⟨(habove before block appStateUpdates validatorSetUpdates
    (hbefore.trans hlog)).fresh.hash, ?_⟩
  rcases wf.parent_of_safeBlock hsafe with hgenesis | hstored
  · exact .inl hgenesis
  · obtain ⟨parent, hparent, hhash⟩ := inserts_of_stored path hstored
    have hlt : before.length < log'.length := by
      have hle := hbefore.length_le
      rw [List.length_append, List.length_singleton] at hle
      omega
    exact .inr ⟨fun hzero => wf.genesis (hzero ▸ hstored), before, parent, hlt, hprefix, hparent,
      hhash⟩

theorem justifies {v : VerifyingKey} (hv : v ∈ honest) :
    Justifies cr (config v) (justifyOf (insertedBlocks cr config (initial appState vss) honest log))
      (initial appState vss) (log v) where
  inserted block hblock := by
    refine justifyOf_hash hcareful.hash ?_ ⟨v, hv, hblock⟩
    rintro block ⟨u, -, before, -, -, -, hcorrect, -⟩
    exact Block.hashOf_of_isCorrect hcorrect
  root := by
    cases hroot : justifyOf (insertedBlocks cr config (initial appState vss) honest log) 0 with
    | none => rfl
    | some j =>
      obtain ⟨block, ⟨u, hu, hblock⟩, hzero, -⟩ := exists_of_justifyOf hroot
      exact absurd hzero (parent_of_inserts h hcareful hu List.prefix_rfl hblock).1
  genesis b j hj hzero := by
    obtain ⟨block, ⟨u, hu, hblock⟩, -, rfl⟩ := exists_of_justifyOf hj
    rcases (parent_of_inserts h hcareful hu List.prefix_rfl hblock).2 with hgenesis | ⟨hne, -⟩
    · exact hgenesis
    · exact absurd hzero hne

/-- Each replica inserts a block after its parent, so there are no cycles. -/
theorem acyclic_certificatesOf (vs : ValidatorSet) :
    Acyclic (certificatesOf cr config (initial appState vss) honest log vs).up := by
  have hacc : ∀ n, ∀ v ∈ honest, ∀ log', log' <+: log v → log'.length = n →
      ∀ block, Inserts cr (config v) (initial appState vss) log' block →
      Acc (fun p c => (certificatesOf cr config (initial appState vss) honest log vs).up c = some p)
        block.hash := by
    intro n
    induction n using Nat.strong_induction_on with
    | _ n ih =>
      rintro v hv log' hlog rfl block hblock
      refine ⟨_, fun p hp => ?_⟩
      obtain ⟨j, hj, rfl⟩ := Chained.Certificates.up_eq_some.mp hp
      have hjustify := justifies h hcareful hv
      obtain rfl : block.justify = j :=
        Option.some.inj ((hjustify.inserted block (hblock.mono hlog)).symm.trans hj)
      rcases (parent_of_inserts h hcareful hv hlog hblock).2 with
        hgenesis | ⟨-, before, parent, hlt, hbefore, hparent, hhash⟩
      · rw [hgenesis]
        refine ⟨_, fun q hq => ?_⟩
        obtain ⟨k, hk, -⟩ := Chained.Certificates.up_eq_some.mp hq
        cases hjustify.root.symm.trans hk
      · have hacc := ih _ hlt v hv before (hbefore.trans hlog) rfl parent hparent
        rwa [hhash] at hacc
  refine ⟨fun b => ⟨b, fun p hp => ?_⟩⟩
  obtain ⟨j, hj, rfl⟩ := Chained.Certificates.up_eq_some.mp hp
  obtain ⟨block, ⟨v, hv, hblock⟩, rfl, rfl⟩ := exists_of_justifyOf hj
  exact (hacc _ v hv _ List.prefix_rfl rfl block hblock).inv hp

/-! ## What each replica commits -/

section

variable (hfixed : FixedValidators apps) (hheight : vss.updateHeight = none) {v : VerifyingKey}
  (hv : v ∈ honest) {log' : List Event} (hlog : log' <+: log v)
include hfixed hheight hv hlog

theorem settled_of_network :
    Settled cr vss.committedValidatorSet
      (justifyOf (insertedBlocks cr config (initial appState vss) honest log))
      ((initial appState vss).replay log') := by
  have path := treePath_of_prefix (h.history' hv) hlog
  exact settled_of_path path hfixed hheight (Inserted.of_prefix (hcareful.above v hv) hlog)
    (Justifies.of_prefix (justifies h hcareful hv) hlog)

theorem votesLocked_of_network : ∃ st, VotesLocked cr vss.committedValidatorSet
    (justifyOf (insertedBlocks cr config (initial appState vss) honest log)) log'
    ((initial appState vss).replay log') st := by
  obtain ⟨v₀, b, -, path, -⟩ := history_path (h.history' hv)
  obtain ⟨rest, hrest⟩ := hlog
  rw [← hrest] at path
  obtain ⟨a, path, -⟩ := Path.append_iff.mp path
  have hprefix : log' <+: log v := ⟨rest, hrest⟩
  have hlocked := votesLocked_of_path path hfixed hheight
    (Inserted.of_prefix (hcareful.above v hv) hprefix)
    (Justifies.of_prefix (justifies h hcareful hv) hprefix)
    fun before e hbefore => hcareful.lock v hv before e (hbefore.trans hprefix)
  rw [path_tree path] at hlocked
  exact ⟨_, hlocked⟩

/-- The highest committed block is final. -/
theorem final_of_network {b : CryptoHash}
    (hb : (initial appState vss).replay log' .highestCommittedBlock = some b) :
    (certificatesOf cr config (initial appState vss) honest log vss.committedValidatorSet).Final
      b := by
  obtain ⟨st, hlocked⟩ := votesLocked_of_network h hcareful hfixed hheight hv hlog
  exact (hlocked.decided b hb).final

omit hlog in
/-- The votes of the honest replicas are as the three-chain rule asks. -/
theorem rules_of_network : Chained.Rules
    (certificatesOf cr config (initial appState vss) honest log vss.committedValidatorSet)
    (Network.Votes honest log) where
  acyclic := acyclic_certificatesOf h hcareful _
  common pc pc' hpc hpc' :=
    h.exists_common_voter hv ⟨[], List.nil_prefix, .inl (Fixed.initial hheight).committed⟩ hpc hpc'
  once u view b b' hb hb' := by
    obtain ⟨hu, vote, hvote, hview, rfl⟩ := hb
    obtain ⟨-, vote', hvote', hview', rfl⟩ := hb'
    have hsame : vote.view = vote'.view := Fin.ext (hview.trans hview'.symm)
    rw [votes_same_of_safe (h.history' hu) (hcareful.crash u hu) hvote hvote' hsame]
  locked u view view' b b' hb hb' hlt := by
    obtain ⟨hu, vote, hvote, rfl, rfl⟩ := hb
    obtain ⟨-, vote', hvote', rfl, rfl⟩ := hb'
    obtain ⟨v₀, a, hv₀, path, -⟩ := history_path (h.history' hu)
    have hascending := (votesInOrder_of_path hv₀ path (hcareful.crash u hu)).ascending
    obtain ⟨st, hlocked⟩ :=
      votesLocked_of_network h hcareful hfixed hheight hu (List.prefix_rfl (l := log u))
    -- The vote of the lower view is the earlier one.
    refine List.Pairwise.forall_of_forall_of_flip (R := fun x y => x.view < y.view →
      (certificatesOf cr config (initial appState vss) honest log
        vss.committedValidatorSet).Binds x.block y.block) ?_ ?_ ?_ hvote hvote' hlt
    · exact fun x _ hlt => absurd hlt (lt_irrefl _)
    · refine hlocked.bound.imp ?_
      exact fun hbinds _ => hbinds
    · refine hascending.imp ?_
      exact fun hlt hlt' => absurd hlt' (lt_asymm hlt)

omit hfixed hheight in
theorem indexedChain_of_commitsAbove
    (hcommits : ∀ s justify, ActsUpon (initial appState vss) log' s justify → s.CommitsAbove justify) :
    ((initial appState vss).replay log').IndexedChain (committedBlocks log') := by
  have path := treePath_of_prefix (h.history' hv) hlog
  exact indexedChain_of_path path IndexedChain.initial
    (Inserted.of_prefix (hcareful.above v hv) hlog) hcommits

/-- Every block to commit extends those committed before. -/
theorem commitsAbove_of_network : ∀ s justify, ActsUpon (initial appState vss) log' s justify →
    s.CommitsAbove justify := by
  induction log' using List.reverseRecOn with
  | nil =>
    rintro s justify ⟨before, fuel, wb, updates, hbefore, -⟩
    cases (List.append_eq_nil_iff.mp (List.prefix_nil.mp hbefore)).2
  | append_singleton log' e ih =>
    have hprefix : log' <+: log v := (List.prefix_append ..).trans hlog
    rintro s justify ⟨before, fuel, wb, updates, hbefore, rfl, hupdate⟩
    rcases List.prefix_concat_iff.mp hbefore with heq | hbefore
    · obtain ⟨rfl, he⟩ := List.append_inj' heq rfl
      obtain rfl : .effect (.write wb) = e := (List.cons.inj he).1
      intro target highest htarget hhighest
      have hsettled := settled_of_network h hcareful hfixed hheight hv hprefix
      have hroot := (justifies h hcareful hv).root
      have hchain := indexedChain_of_commitsAbove h hcareful hv hprefix (ih hprefix)
      have hfinal := final_of_network h hcareful hfixed hheight hv hprefix hhighest
      have hfinal' := final_of_network h hcareful hfixed hheight hv hlog (b := target) (by
        rw [replay_snoc]
        exact highestCommittedBlock_update hsettled.wf hupdate htarget)
      rcases (rules_of_network h hcareful hfixed hheight hv).final_total hfinal' hfinal with
        hext | hext
      · exact hsettled.extends_of_stored hroot (stored_of_blockToCommit hsettled.wf htarget) hext
      · have hstored := hchain.stored highest (List.mem_of_getLast? (hchain.highest.symm.trans hhighest))
        exact absurd (hsettled.extends_of_stored hroot hstored hext)
          (hchain.not_extends_target htarget hhighest)
    · exact ih hprefix _ justify ⟨before, fuel, wb, updates, hbefore, rfl, hupdate⟩

theorem indexedChain_of_network :
    ((initial appState vss).replay log').IndexedChain (committedBlocks log') :=
  indexedChain_of_commitsAbove h hcareful hv hlog
    (commitsAbove_of_network h hcareful hfixed hheight hv hlog)

omit hlog in
/-- The committed blocks are a chain from genesis on in the forest of the network, too. -/
theorem isChain_of_network : (0 :: committedBlocks (log v)).IsChain fun p c =>
    (certificatesOf cr config (initial appState vss) honest log
      vss.committedValidatorSet).up c = some p := by
  have hprefix : log v <+: log v := List.prefix_rfl
  have hsettled := settled_of_network h hcareful hfixed hheight hv hprefix
  have hchain := indexedChain_of_network h hcareful hfixed hheight hv hprefix
  refine List.isChain_cons.mpr ⟨fun b hb => ?_, hchain.linked.imp fun p c => hsettled.up_eq_some⟩
  exact hsettled.up_eq_some (up_eq_some.mpr ⟨_, hchain.rooted b hb, rfl⟩)

end

/-- Of what two honest replicas have committed the one is the beginning of the other. -/
theorem isPrefix_of_network (hfixed : FixedValidators apps) (hheight : vss.updateHeight = none)
    {v v' : VerifyingKey} (hv : v ∈ honest) (hv' : v' ∈ honest) :
    committedBlocks (log v) <+: committedBlocks (log v') ∨
      committedBlocks (log v') <+: committedBlocks (log v) := by
  rcases List.eq_nil_or_concat (committedBlocks (log v)) with hnil | ⟨cs, b, hb⟩
  · exact .inl (hnil ▸ List.nil_prefix)
  rcases List.eq_nil_or_concat (committedBlocks (log v')) with hnil | ⟨cs', b', hb'⟩
  · exact .inr (hnil ▸ List.nil_prefix)
  have hforest := isChain_of_network h hcareful hfixed hheight hv
  have hforest' := isChain_of_network h hcareful hfixed hheight hv'
  have hhighest :=
    (indexedChain_of_network h hcareful hfixed hheight hv List.prefix_rfl).highest
  have hhighest' :=
    (indexedChain_of_network h hcareful hfixed hheight hv' List.prefix_rfl).highest
  have hroot : (certificatesOf cr config (initial appState vss) honest log
      vss.committedValidatorSet).up 0 = none := by
    rw [Chained.Certificates.up]
    exact congrArg (Option.map _) (justifies h hcareful hv).root
  rw [hb, List.concat_eq_append] at hhighest hforest ⊢
  rw [hb', List.concat_eq_append] at hhighest' hforest' ⊢
  rw [List.getLast?_concat] at hhighest hhighest'
  -- The last blocks are final, so one of them extends the other.
  rcases (rules_of_network h hcareful hfixed hheight hv).final_total
    (final_of_network h hcareful hfixed hheight hv List.prefix_rfl hhighest)
    (final_of_network h hcareful hfixed hheight hv' List.prefix_rfl hhighest') with hext | hext
  · refine .inr (Extends.isPrefix_of_getLastD hroot hforest' hforest ?_)
    rwa [List.getLastD_concat, List.getLastD_concat]
  · refine .inl (Extends.isPrefix_of_getLastD hroot hforest hforest' ?_)
    rwa [List.getLastD_concat, List.getLastD_concat]

/-- In a network with fixed validators, in which honest replicas crash safely and never give up a
lock, of what two of them have committed the one is the beginning of the other, and no two of them
have committed different blocks at the same height. -/
theorem agreement (hfixed : FixedValidators apps) (hheight : vss.updateHeight = none) :
    ∀ v ∈ honest, ∀ v' ∈ honest,
      (committedBlocks (log v) <+: committedBlocks (log v') ∨
        committedBlocks (log v') <+: committedBlocks (log v)) ∧
      ∀ height b b', ((initial appState vss).replay (log v)).kv.blockAtHeight height = .ok (some b) →
        ((initial appState vss).replay (log v')).kv.blockAtHeight height = .ok (some b') → b = b' := by
  intro v hv v' hv'
  have hline := isPrefix_of_network h hcareful hfixed hheight hv hv'
  refine ⟨hline, fun height b b' hb hb' => ?_⟩
  rw [kv_blockAtHeight, Except.ok.injEq,
    (indexedChain_of_network h hcareful hfixed hheight hv List.prefix_rfl).blockAtHeight_eq] at hb
  rw [kv_blockAtHeight, Except.ok.injEq,
    (indexedChain_of_network h hcareful hfixed hheight hv' List.prefix_rfl).blockAtHeight_eq] at hb'
  have hsame : ∀ {l l' : List CryptoHash} {b b' : CryptoHash}, l <+: l' →
      l[height.val]? = some b → l'[height.val]? = some b' → b = b' := by
    rintro l _ b b' ⟨rest, rfl⟩ hb hb'
    rw [List.getElem?_append_left (List.getElem?_eq_some_iff.mp hb).1] at hb'
    exact Option.some.inj (hb.symm.trans hb')
  rcases hline with hline | hline
  · exact hsame hline hb hb'
  · exact (hsame hline hb' hb).symm

/-- Under the same conditions an honest replica commits a chain of blocks from genesis on at all
times, each linked to the one before and still there to be read, and its index by heights is that
chain. -/
theorem committed_chain_from_genesis (hfixed : FixedValidators apps)
    (hheight : vss.updateHeight = none) : ∀ v ∈ honest, ∀ log', log' <+: log v →
      let s := (initial appState vss).replay log'
      (∀ height, s.kv.blockAtHeight height = .ok (committedBlocks log')[height.val]?) ∧
      (∀ b ∈ committedBlocks log', ∃ block, s.kv.block b = .ok (some block)) ∧
      (0 :: committedBlocks log').IsChain fun earlier later =>
        ∃ justify, s.kv.blockJustify later = .ok justify ∧ justify.block = earlier := by
  intro v hv log' hlog s
  have hchain := indexedChain_of_network h hcareful hfixed hheight hv hlog
  refine ⟨fun height => ?_, fun b hb => ?_, List.isChain_cons.mpr ⟨fun b hb => ?_, ?_⟩⟩
  · exact congrArg Except.ok (hchain.blockAtHeight_eq height)
  · obtain ⟨block, hblock, -⟩ := hchain.wf.exists_block (hchain.stored b hb)
    exact ⟨block, hblock⟩
  · exact ⟨_, kv_blockJustify_eq_ok.mpr (hchain.rooted b hb), rfl⟩
  · refine hchain.linked.imp fun p c hc => ?_
    obtain ⟨justify, hjustify, hp⟩ := up_eq_some.mp hc
    exact ⟨justify, kv_blockJustify_eq_ok.mpr hjustify, hp⟩

end

end Protocol

/-! ## Two replicas that commit

Validator 2 leads all views but the fourth, which validator 1 leads.  It commits two blocks, and a
replica that follows, 3, has committed one by then. -/

namespace Sample

def agreedChain : List (ViewNumber × Block) :=
  [(1, block₀), (2, block₁), (3, block₂), (4, block₃), (5, block₄)]

/-- Validator 2 signs its votes for these blocks and one to leave view 0 only, and the follower
nothing. -/
def agreedCrypto : Crypto := unforgeable fun key bs =>
  key == 1 || key == leader && (bs == timeoutVoteBytes 7 0 ||
    agreedChain.any fun (view, block) => bs == phaseVoteBytes 7 view block.hash .generic)

def agreedVote (view : ViewNumber) (block : Block) : PhaseVote :=
  PhaseVote.new agreedCrypto leader 7 view block.hash .generic

def agreedLeave : TimeoutVote := ⟨7, 0, agreedCrypto.sign leader (timeoutVoteBytes 7 0), none⟩

/-- Validator 1 shows a certificate around. -/
def shows (certificate : ProgressCertificate) : Input :=
  input 1 (.pacemaker (.advanceView ⟨certificate⟩)) (3 * 10 ^ 9)

def showsBlock (view : ViewNumber) (block : Block) : Input :=
  shows (.phaseCertificate (certify view block.hash .generic))

def voteBack (view : ViewNumber) (block : Block) : Input :=
  input leader (.hotStuff (.phaseVote (agreedVote view block))) (3 * 10 ^ 9)

def fourthView : Input := input 1 (.hotStuff (.proposal ⟨7, 4, block₃⟩)) (3 * 10 ^ 9)

def agreedLeaderInputs : List Input :=
  [{ shows (.timeoutCertificate timeout) with message := none },
   shows (.timeoutCertificate timeout), propose 1 block₀, voteBack 1 block₀, showsBlock 1 block₀,
   propose 2 block₁, voteBack 2 block₁, showsBlock 2 block₁, propose 3 block₂, showsBlock 3 block₂,
   fourthView, voteBack 4 block₃, showsBlock 4 block₃, propose 5 block₄]

def agreedFollowerInputs : List Input :=
  [shows (.timeoutCertificate timeout), propose 1 block₀, showsBlock 1 block₀, propose 2 block₁,
   showsBlock 2 block₁, propose 3 block₂, showsBlock 3 block₂, fourthView]

end Sample

namespace Protocol

open BlockTree

/-- Whether a batch keeps to the lock. -/
def holdsLock (s : BlockTree) (wb : WriteBatch) : Bool :=
  match s .lockedPc, s.write wb .lockedPc with
  | some locked, some locked' => locked == .genesisPc || locked.view < locked'.view ||
      (locked.view == locked'.view && locked.block == locked'.block)
  | _, _ => false

theorem neverUnlocks_of_checkLog {appState : AppStateUpdates} {vss : ValidatorSetState}
    {config : Configuration} {log : List Event} (h : History cr config apps (initial appState vss) log)
    (hcheck : checkLog holdsLock (initial appState vss) log = true) :
    NeverUnlocks (initial appState vss) log := by
  intro before e hbefore
  have hsame : HoldsLock ((initial appState vss).replay before)
      ((initial appState vss).replay before) := by
    have path := treePath_of_prefix h ((List.prefix_append ..).trans hbefore)
    have hsome := path_lockedPc path (congrArg Option.isSome initial_lockedPc)
    obtain ⟨locked, hlocked⟩ := Option.isSome_iff_exists.mp hsome
    exact ⟨locked, locked, hlocked, hlocked, .inr (.inr ⟨rfl, rfl⟩)⟩
  rw [replay_snoc]
  cases e with
  | crash => exact hsame
  | effect e =>
    cases e with
    | act a => exact hsame
    | write wb =>
      have hholds := check_of_checkLog hcheck hbefore
      unfold holdsLock at hholds
      split at hholds
      · rename_i locked locked' hlocked hlocked'
        simp only [Bool.or_eq_true, Bool.and_eq_true, beq_iff_eq, decide_eq_true_eq,
          or_assoc] at hholds
        exact ⟨locked, locked', hlocked, hlocked', hholds⟩
      · cases hholds

/-- Whether a batch that inserts a block inserts one of the chain, without data. -/
def insertsAgreed (_ : BlockTree) : WriteBatch → Bool
  | .set (.blockHeight b) height :: .set (.blockJustify _) justify ::
      .set (.blockDataHash _) dataHash :: _ :: next :: _ =>
    (Sample.agreedChain.any fun (_, block) => b == block.hash && height == block.height &&
      justify == block.justify && dataHash == block.dataHash) && !next.key.isDatum
  | _ => true

theorem inserted_of_insertsAgreed {log : List Event}
    (hcheck : checkLog insertsAgreed s₀ log = true) :
    Inserted s₀ (fun _ block _ => block.data = [] ∧
      ∃ agreed ∈ Sample.agreedChain, Block.HashedAlike block agreed.2) log := by
  intro before block appStateUpdates validatorSetUpdates hbefore
  have hinserts := check_of_checkLog hcheck hbefore
  have hdata : block.data = [] := by
    cases hdata : block.data with
    | nil => rfl
    | cons datum data =>
      unfold insertBatch WriteBatch.setBlock at hinserts
      rw [hdata] at hinserts
      exact absurd (Bool.and_eq_true_iff.mp hinserts).2 Bool.false_ne_true
  unfold insertBatch WriteBatch.setBlock at hinserts
  rw [hdata] at hinserts
  have hagreed : (Sample.agreedChain.any fun (_, agreed) => block.hash == agreed.hash &&
      block.height == agreed.height && block.justify == agreed.justify &&
      block.dataHash == agreed.dataHash) = true := (Bool.and_eq_true_iff.mp hinserts).1
  obtain ⟨agreed, hmem, hsame⟩ := List.any_eq_true.mp hagreed
  simp only [Bool.and_eq_true, beq_iff_eq] at hsame
  exact ⟨hdata, agreed, hmem, hsame.1.1.2, hsame.1.2, hsame.2⟩

theorem agreed_of_checkLog {config : Configuration} {log : List Event} {block : Block}
    (hcheck : checkLog insertsAgreed s₀ log = true) (hblock : Inserts cr config s₀ log block) :
    block.data = [] ∧ ∃ agreed ∈ Sample.agreedChain, Block.HashedAlike block agreed.2 := by
  obtain ⟨before, appStateUpdates, validatorSetUpdates, hbefore, -, -⟩ := hblock
  exact inserted_of_insertsAgreed hcheck before block appStateUpdates validatorSetUpdates hbefore

/-- What is asked of the log of either replica. -/
def agrees (log : List Event) : Bool :=
  crashFree log && checkLog holdsLock Sample.tree log && checkLog insertsAbove Sample.tree log &&
    checkLog insertsAgreed Sample.tree log && keepsValidatorSets log

/-- Whether an input comes from validator 1, or from validator 2, which sends it. -/
def hearsLeader (leaderLog : List Event) (input : Input) : Bool :=
  input.message.all fun (origin, msg) =>
    origin == 1 || origin == Sample.leader && sends leaderLog msg

/-- What is asked of the log of the leader. -/
def agreedLeads (leaderInputs followerInputs : List Input) (log : List Event) : Bool :=
  agrees log && leaderInputs.all (hearsLeader log) && followerInputs.all (hearsLeader log) &&
  sends log (.pacemaker (.timeoutVote Sample.agreedLeave)) &&
  (Sample.agreedChain.all fun (view, block) =>
    sends log (.hotStuff (.phaseVote (Sample.agreedVote view block))))

set_option maxRecDepth 100000 in
theorem checks_agreedLeader : Replica.checks Sample.agreedCrypto
    (Sample.configuration Sample.leader) Sample.tree 30 (fun _ _ => true) Sample.agreedLeaderInputs
    (fun log _ => agreedLeads Sample.agreedLeaderInputs Sample.agreedFollowerInputs log &&
      committedBlocks log == [Sample.block₀.hash, Sample.block₁.hash]) = true := by
  decide +kernel

set_option maxRecDepth 100000 in
theorem checks_agreedFollower : Replica.checks Sample.agreedCrypto
    (Sample.configuration Sample.follower) Sample.tree 30 (fun _ _ => true)
    Sample.agreedFollowerInputs
    (fun log _ => agrees log && committedBlocks log == [Sample.block₀.hash]) = true := by
  decide +kernel

theorem app_agreedLeaderInputs : ∀ input ∈ Sample.agreedLeaderInputs, input.app = Sample.app := by
  simp [Sample.agreedLeaderInputs, Sample.shows, Sample.showsBlock, Sample.voteBack,
    Sample.fourthView, Sample.propose, Sample.input]

theorem app_agreedFollowerInputs :
    ∀ input ∈ Sample.agreedFollowerInputs, input.app = Sample.app := by
  simp [Sample.agreedFollowerInputs, Sample.shows, Sample.showsBlock, Sample.fourthView,
    Sample.propose, Sample.input]

theorem hashes_of_agreedChain :
    (∀ agreed ∈ Sample.agreedChain, Block.hashOf Sample.agreedCrypto
      agreed.2.height agreed.2.justify agreed.2.dataHash = .ok agreed.2.hash) ∧
    ∀ agreed ∈ Sample.agreedChain, ∀ agreed' ∈ Sample.agreedChain,
      agreed.2.hash = agreed'.2.hash → agreed = agreed' := by
  decide +kernel

/-- The hashes of the blocks of the chain differ. -/
theorem collisionFree_of_agreed {blocks : Set Block} (h : ∀ block ∈ blocks,
    block.data = [] ∧ ∃ agreed ∈ Sample.agreedChain, Block.HashedAlike block agreed.2) :
    Block.CollisionFree Sample.agreedCrypto blocks := by
  have hinput : ∀ block ∈ blocks, ∀ bytes,
      Block.hashInput block.height block.justify block.dataHash = .ok bytes →
      ∃ agreed ∈ Sample.agreedChain, Sample.agreedCrypto.sha256 bytes = agreed.2.hash ∧
        Block.hashInput agreed.2.height agreed.2.justify agreed.2.dataHash = .ok bytes := by
    intro block hblock bytes hbytes
    obtain ⟨-, agreed, hagreed, hheight, hjustify, hdataHash⟩ := h block hblock
    rw [hheight, hjustify, hdataHash] at hbytes
    obtain ⟨bytes', hbytes', hhash⟩ := Block.hashOf_eq_ok.mp (hashes_of_agreedChain.1 agreed hagreed)
    obtain rfl := Except.ok.inj (hbytes.symm.trans hbytes')
    exact ⟨agreed, hagreed, hhash, hbytes⟩
  rintro bytes ⟨block, hblock, hbytes⟩ bytes' ⟨block', hblock', hbytes'⟩ hsame
  obtain ⟨agreed, hagreed, hhash, hbytes⟩ := hinput block hblock bytes hbytes
  obtain ⟨agreed', hagreed', hhash', hbytes'⟩ := hinput block' hblock' bytes' hbytes'
  obtain rfl := hashes_of_agreedChain.2 agreed hagreed agreed' hagreed'
    (hhash.symm.trans (hsame.trans hhash'))
  exact Except.ok.inj (hbytes.symm.trans hbytes')

/-- What verifies in the name of validator 2 is a vote that it has sent, and nothing verifies in
the name of the follower. -/
theorem unforgeable_agreed {log : VerifyingKey → List Event} {v : VerifyingKey}
    (hv : v = Sample.leader ∨ v = Sample.follower)
    (hleaves : sends (log Sample.leader) (.pacemaker (.timeoutVote Sample.agreedLeave)) = true)
    (hvotes : ∀ vote ∈ Sample.agreedChain, sends (log Sample.leader)
      (.hotStuff (.phaseVote (Sample.agreedVote vote.1 vote.2))) = true) :
    Unforgeable Sample.agreedCrypto (fun v => Signs Sample.agreedCrypto (Sample.configuration v)
      Sample.tree (log v)) v := by
  intro message signature h
  have hsigned := (Bool.and_eq_true_iff.mp h).1
  simp only [Bool.or_eq_true, Bool.and_eq_true, beq_iff_eq, List.any_eq_true] at hsigned
  rcases hsigned with hother | ⟨rfl, rfl | ⟨vote, hvote, rfl⟩⟩
  · rcases hv with rfl | rfl <;> exact absurd hother (by decide)
  · exact ⟨_, _, sends_of_sends hleaves, rfl, rfl⟩
  · exact ⟨_, _, sends_of_sends (hvotes vote hvote), rfl, rfl⟩

theorem power_of_tree {log : List Event} (hkeeps : keepsValidatorSets log = true)
    {vs : ValidatorSet} (hvs : Held Sample.tree log vs) :
    3 * vs.powerOf (vs.members \ {Sample.leader, Sample.follower}) < vs.totalPower := by
  have hcommitted : Sample.tree .committedValidatorSet = some Sample.validators := rfl
  have hprevious : Sample.tree .previousValidatorSet = some Sample.validators := rfl
  obtain rfl : Sample.validators = vs := by
    rcases held_of_keepsValidatorSets hkeeps hvs with hvs | hvs
    · exact Option.some.inj (hcommitted.symm.trans hvs)
    · exact Option.some.inj (hprevious.symm.trans hvs)
  decide

/-- What the leader sends is received from it. -/
def HearsSent (log : VerifyingKey → List Event) : Condition := fun _ _ input _ =>
  ∀ origin ∈ ({Sample.leader, Sample.follower} : Finset VerifyingKey), ∀ msg,
    input.message = some (origin, msg) →
      Sends Sample.agreedCrypto (Sample.configuration origin) Sample.tree (log origin) msg

theorem hearsSent_of_hearsLeader {leaderLog : List Event} {input : Input}
    (h : hearsLeader leaderLog input = true) (followerLog : List Event) {r : Replica} {fuel : Nat}
    {effects : List Replica.Effect} :
    HearsSent (forkLogs leaderLog followerLog) r fuel input effects := by
  intro origin horigin msg hmsg
  rw [hearsLeader, hmsg] at h
  simp only [Option.all_some, Bool.or_eq_true, Bool.and_eq_true, beq_iff_eq] at h
  rcases h with rfl | ⟨rfl, hsent⟩
  · exact absurd horigin (by decide)
  · exact sends_of_sends hsent

theorem exists_network_of_checks {app : App} {leaderInputs followerInputs : List Input}
    {P Q : List Event → Bool} (happ : ∀ input ∈ leaderInputs, input.app = app)
    (happ' : ∀ input ∈ followerInputs, input.app = app)
    (hleader : Replica.checks Sample.agreedCrypto (Sample.configuration Sample.leader) Sample.tree 30
      (fun _ _ => true) leaderInputs
      (fun log _ => agreedLeads leaderInputs followerInputs log && P log) = true)
    (hfollower : Replica.checks Sample.agreedCrypto (Sample.configuration Sample.follower)
      Sample.tree 30 (fun _ _ => true) followerInputs (fun log _ => agrees log && Q log) = true) :
    ∃ log, Network Sample.agreedCrypto (· = app) Sample.tree {Sample.leader, Sample.follower}
        Sample.configuration log ∧
      Careful Sample.agreedCrypto Sample.configuration Sample.tree {Sample.leader, Sample.follower}
        log ∧
      Block.DataBound (insertedBlocks Sample.agreedCrypto Sample.configuration Sample.tree
        {Sample.leader, Sample.follower} log) ∧
      P (log Sample.leader) = true ∧ Q (log Sample.follower) = true := by
  obtain ⟨leaderLog, r, run, hleader⟩ := @exists_runUnder_of_checks_log _ _ (· = app) _
    (fun log r fuel input effects =>
      ∀ followerLog, HearsSent (forkLogs log followerLog) r fuel input effects) _ _ _ _
    happ (fun log r' hchecked _ input hinput _ _ followerLog => by
      simp only [agreedLeads, Bool.and_eq_true, List.all_eq_true] at hchecked
      exact hearsSent_of_hearsLeader (hchecked.1.1.1.1.2 input hinput) followerLog) hleader
  simp only [agreedLeads, Bool.and_eq_true, List.all_eq_true] at hleader
  obtain ⟨⟨⟨⟨⟨hagrees, -⟩, hhears⟩, hleaves⟩, hvotes⟩, hP⟩ := hleader
  obtain ⟨followerLog, r', run', hfollower⟩ := @exists_runUnder_of_checks_log _ _
    (· = app) _ (fun log => HearsSent (forkLogs leaderLog log)) _ _ _ _
    happ' (fun log _ _ _ input hinput _ _ =>
      hearsSent_of_hearsLeader (hhears input hinput) log) hfollower
  obtain ⟨hagrees', hQ⟩ := Bool.and_eq_true_iff.mp hfollower
  have hcases : ∀ v ∈ ({Sample.leader, Sample.follower} : Finset VerifyingKey),
      v = Sample.leader ∨ v = Sample.follower := by simp
  have hnothing : ∀ {log : VerifyingKey → List Event} {r : Replica} (fuel : Nat) (input : Input),
      input.message = none → HearsSent log r fuel input [] := by
    intro log r fuel input hnone origin _ msg hmsg
    rw [hnone] at hmsg
    cases hmsg
  have hlogs : ∀ v ∈ ({Sample.leader, Sample.follower} : Finset VerifyingKey),
      agrees (forkLogs leaderLog followerLog v) = true := by
    intro v hv
    rcases hcases v hv with rfl | rfl
    · exact hagrees
    · exact hagrees'
  have network : Network Sample.agreedCrypto (· = app) Sample.tree
      {Sample.leader, Sample.follower} Sample.configuration (forkLogs leaderLog followerLog) := by
    refine ⟨fun _ _ => rfl, fun _ _ _ _ => rfl, fun v hv => ?_, fun v hv => ?_,
      fun v hv vs hvs => ?_⟩
    · rcases hcases v hv with rfl | rfl
      · exact (run.mono fun _ _ _ _ h => h followerLog).history (rfl : app = app) hnothing
      · exact run'.history (rfl : app = app) hnothing
    · exact unforgeable_agreed (hcases v hv) hleaves hvotes
    · have hkeeps := hlogs v hv
      simp only [agrees, Bool.and_eq_true] at hkeeps
      exact power_of_tree hkeeps.2 hvs
  have hinserted : ∀ block ∈ insertedBlocks Sample.agreedCrypto Sample.configuration Sample.tree
      {Sample.leader, Sample.follower} (forkLogs leaderLog followerLog),
      block.data = [] ∧ ∃ agreed ∈ Sample.agreedChain, Block.HashedAlike block agreed.2 := by
    rintro block ⟨v, hv, hblock⟩
    have hagreed := hlogs v hv
    simp only [agrees, Bool.and_eq_true] at hagreed
    exact agreed_of_checkLog hagreed.1.2 hblock
  refine ⟨_, network, ⟨fun v hv before hbefore => ?_, fun v hv => ?_, fun v hv => ?_,
    collisionFree_of_agreed hinserted⟩, fun b hb b' hb' _ => ?_, hP, hQ⟩
  · have hcrash := hlogs v hv
    simp only [agrees, Bool.and_eq_true, crashFree, List.all_eq_true] at hcrash
    have hmem : Event.crash ∈ forkLogs leaderLog followerLog v := hbefore.subset (by simp)
    exact absurd (hcrash.1.1.1.1 _ hmem) Bool.false_ne_true
  · have hlock := hlogs v hv
    simp only [agrees, Bool.and_eq_true] at hlock
    exact neverUnlocks_of_checkLog (network.history' hv) hlock.1.1.1.2
  · have habove := hlogs v hv
    simp only [agrees, Bool.and_eq_true] at habove
    exact inserted_of_checkLog habove.1.1.2
  · rw [(hinserted b hb).1, (hinserted b' hb').1]

theorem exists_agreed_network : ∃ log,
    Network Sample.agreedCrypto (· = Sample.app) Sample.tree {Sample.leader, Sample.follower}
      Sample.configuration log ∧
    Careful Sample.agreedCrypto Sample.configuration Sample.tree {Sample.leader, Sample.follower}
      log ∧
    committedBlocks (log Sample.leader) = [Sample.block₀.hash, Sample.block₁.hash] ∧
    committedBlocks (log Sample.follower) = [Sample.block₀.hash] := by
  obtain ⟨log, network, hcareful, -, hblocks, hblocks'⟩ := exists_network_of_checks
    app_agreedLeaderInputs app_agreedFollowerInputs checks_agreedLeader checks_agreedFollower
  exact ⟨log, network, hcareful, eq_of_beq hblocks, eq_of_beq hblocks'⟩

theorem fixedValidators_app : FixedValidators (· = Sample.app) := by
  rintro app rfl block appStateUpdates validatorSetUpdates ⟨view, hvalid | hvalid⟩
  · exact (ValidateBlockResponse.valid.inj hvalid).2.symm
  · exact (ValidateBlockResponse.valid.inj hvalid).2.symm

theorem agreement_of_leader_and_follower : ∃ log : VerifyingKey → List Event,
    committedBlocks (log Sample.leader) = [Sample.block₀.hash, Sample.block₁.hash] ∧
    committedBlocks (log Sample.follower) = [Sample.block₀.hash] ∧
    (committedBlocks (log Sample.leader) <+: committedBlocks (log Sample.follower) ∨
      committedBlocks (log Sample.follower) <+: committedBlocks (log Sample.leader)) := by
  obtain ⟨log, network, hcareful, hblocks, hblocks'⟩ := exists_agreed_network
  exact ⟨log, hblocks, hblocks', (agreement network hcareful fixedValidators_app rfl Sample.leader
    (by simp) Sample.follower (by simp)).1⟩

theorem committed_chain_of_leader : ∃ log : VerifyingKey → List Event,
    committedBlocks (log Sample.leader) = [Sample.block₀.hash, Sample.block₁.hash] ∧
    (0 :: committedBlocks (log Sample.leader)).IsChain fun earlier later =>
      ∃ justify, (Sample.tree.replay (log Sample.leader)).kv.blockJustify later = .ok justify ∧
        justify.block = earlier := by
  obtain ⟨log, network, hcareful, hblocks, -⟩ := exists_agreed_network
  exact ⟨log, hblocks, (committed_chain_from_genesis network hcareful fixedValidators_app rfl
    Sample.leader (by simp) _ List.prefix_rfl).2.2⟩

end Protocol
end HotStuffRs
