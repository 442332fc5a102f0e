import HotStuffRs.HotStuff.Collect

namespace HotStuffRs

/-- The collector after a sequence of votes with their signers. -/
def Collector.feed {C Vote Certificate : Type} [Collector C Vote Certificate] (c : C)
    (votes : List (VerifyingKey × Vote)) : Result C :=
  votes.foldlM (fun c v => Collector.collect c v.1 v.2 >>= fun r => .ok r.2) c

namespace ActiveCollectorPair

variable {C Vote Certificate Topic : Type} [DecidableEq Topic] [Collector C Vote Certificate]
  [SlotCollector C Vote Certificate Topic]

/-- The pair after a sequence of votes with their signers. -/
def feed (pair : ActiveCollectorPair C) (votes : List (VerifyingKey × Vote)) :
    Result (ActiveCollectorPair C) :=
  votes.foldlM (fun pair v => pair.collect v.1 v.2 >>= fun r => .ok r.2) pair

open SlotCollector in
/-- The vote brings its topic to a quorum. -/
def Completes (c : C) (signer : VerifyingKey) (vote : Vote) : Prop :=
  ∃ s quorum, Adds c signer vote s ∧ (Collector.validatorSet c).quorum = .ok quorum ∧ quorum ≤ s.2

open SlotCollector in
/-- The vote finds the place of its signer empty, and does not make a certificate at once of
which the collector keeps no trace. -/
def Changes (c : C) (signer : VerifyingKey) (vote : Vote) : Prop :=
  ∃ s, Adds c signer vote s ∧ ¬ (Completes c signer vote ∧ finish c (voteTopic C vote) s = c)

/-- The pair is in the states of two collectors that each got all the votes. -/
def InStep (cvs pvs : C) (votes : List (VerifyingKey × Vote)) : Prop :=
  ∃ cvs' pvs', Collector.feed cvs votes = .ok cvs' ∧ Collector.feed pvs votes = .ok pvs' ∧
    feed ⟨cvs, some pvs⟩ votes = .ok ⟨cvs', some pvs'⟩

section

variable {c c' p p' cvs pvs : C} {signer : VerifyingKey} {vote : Vote} {s s' : Slot}
  {cert cert' : Option Certificate} {votes : List (VerifyingKey × Vote)} {v : VerifyingKey × Vote}

theorem adds_unique (h : SlotCollector.Adds c signer vote s)
    (h' : SlotCollector.Adds c signer vote s') : s = s' := by
  obtain ⟨-, -, pos, power, hpos, -, hpower, rfl⟩ := h
  obtain ⟨-, -, pos', power', hpos', -, hpower', rfl⟩ := h'
  obtain rfl := Option.some.inj (hpos.symm.trans hpos')
  obtain rfl := Option.some.inj (hpower.symm.trans hpower')
  rfl

theorem adds_slot_ne (h : SlotCollector.Adds c signer vote s) :
    s ≠ SlotCollector.slot c (SlotCollector.voteTopic C vote) := by
  obtain ⟨-, -, pos, power, -, hget, -, rfl⟩ := h
  intro heq
  have hsignatures := congrArg (fun slot : Slot => slot.1[pos]?) heq
  have hlt := (List.getElem?_eq_some_iff.mp hget).1
  simp only [List.getElem?_set_self hlt, hget] at hsignatures
  cases hsignatures

theorem certificate_isSome_iff (h : Collector.collect c signer vote = .ok (cert, c')) :
    cert.isSome = true ↔ Completes c signer vote := by
  rcases SlotCollector.collect_cases h with ⟨hno, rfl, -⟩ | ⟨s, quorum, hadds, hquorum, h⟩
  · constructor
    · intro hsome
      cases hsome
    · intro hcompletes
      obtain ⟨s, quorum, hadds, -⟩ := hcompletes
      exact absurd hadds (hno s)
  · rcases h with ⟨hle, hsome, -⟩ | ⟨hlt, rfl, -⟩
    · exact ⟨fun _ => ⟨s, quorum, hadds, hquorum, hle⟩, fun _ => hsome⟩
    · constructor
      · intro hsome
        cases hsome
      · intro hcompletes
        obtain ⟨s', quorum', hadds', hquorum', hle⟩ := hcompletes
        obtain rfl := adds_unique hadds hadds'
        obtain rfl := Except.ok.inj (hquorum.symm.trans hquorum')
        exact absurd hle hlt

theorem ne_iff_changes (h : Collector.collect c signer vote = .ok (cert, c')) :
    c' ≠ c ↔ Changes c signer vote := by
  rcases SlotCollector.collect_cases h with ⟨hno, -, rfl⟩ | ⟨s, quorum, hadds, hquorum, hcase⟩
  · constructor
    · intro hne
      exact absurd rfl hne
    · intro hchanges
      obtain ⟨s, hadds, -⟩ := hchanges
      exact absurd hadds (hno s)
  · have hcompletes := certificate_isSome_iff h
    rcases hcase with ⟨hle, hsome, rfl⟩ | ⟨hlt, hnone, rfl⟩
    · have hyes := hcompletes.mp hsome
      constructor
      · intro hne
        exact ⟨s, hadds, fun hboth => hne hboth.2⟩
      · intro hchanges heq
        obtain ⟨s', hadds', hnot⟩ := hchanges
        obtain rfl := adds_unique hadds hadds'
        exact hnot ⟨hyes, heq⟩
    · have hno : ¬ Completes c signer vote := by
        rw [← hcompletes, hnone]
        simp
      constructor
      · intro _
        exact ⟨s, hadds, fun hboth => hno hboth.1⟩
      · intro _ heq
        have hslot := SlotCollector.slot_store c (SlotCollector.voteTopic C vote) s
        rw [heq] at hslot
        have hself := congrFun hslot (SlotCollector.voteTopic C vote)
        rw [Function.update_self] at hself
        exact adds_slot_ne hadds hself.symm

theorem feed_snoc : Collector.feed c (votes ++ [v]) =
    Collector.feed c votes >>= fun c => Collector.collect c v.1 v.2 >>= fun r => .ok r.2 := by
  rw [Collector.feed, List.foldlM_append]
  simp only [List.foldlM_cons, List.foldlM_nil, bind_pure]
  rfl

theorem feed_pair_snoc {pair : ActiveCollectorPair C} : feed pair (votes ++ [v]) =
    feed pair votes >>= fun pair => pair.collect v.1 v.2 >>= fun r => .ok r.2 := by
  rw [feed, List.foldlM_append]
  simp only [List.foldlM_cons, List.foldlM_nil, bind_pure]
  rfl

/-- The pair keeps in step on a vote unless the vote makes a certificate in the first
collector and means something to the second. -/
theorem collect_pair_iff (hc : Collector.collect c signer vote = .ok (cert, c'))
    (hp : Collector.collect p signer vote = .ok (cert', p')) :
    ((⟨c, some p⟩ : ActiveCollectorPair C).collect signer vote >>= fun r => .ok r.2) =
        .ok ⟨c', some p'⟩ ↔
      ¬ (Completes c signer vote ∧ Changes p signer vote) := by
  rw [← certificate_isSome_iff hc, ← ne_iff_changes hp]
  simp only [collect, hc, Result.ok_bind, Result.pure_eq]
  cases cert with
  | none => simp [hp]
  | some cert => simp [eq_comm]

theorem inStep_snoc (h : InStep cvs pvs votes) {d q : C}
    (hd : Collector.feed cvs (votes ++ [v]) = .ok d) (hq : Collector.feed pvs (votes ++ [v]) = .ok q) :
    InStep cvs pvs (votes ++ [v]) ↔
      ∀ c p, Collector.feed cvs votes = .ok c → Collector.feed pvs votes = .ok p →
        ¬ (Completes c v.1 v.2 ∧ Changes p v.1 v.2) := by
  obtain ⟨c, p, hc, hp, hpair⟩ := h
  have hd' := hd
  have hq' := hq
  rw [feed_snoc, hc, Result.ok_bind, Result.bind_eq_ok] at hd'
  rw [feed_snoc, hp, Result.ok_bind, Result.bind_eq_ok] at hq'
  obtain ⟨⟨cert, c'⟩, hcollect, hcd⟩ := hd'
  obtain ⟨⟨cert', p'⟩, hcollect', hpq⟩ := hq'
  obtain rfl := Except.ok.inj hcd
  obtain rfl := Except.ok.inj hpq
  have hiff := collect_pair_iff hcollect hcollect'
  constructor
  · intro hstep c₁ p₁ hc₁ hp₁
    obtain rfl := Except.ok.inj (hc.symm.trans hc₁)
    obtain rfl := Except.ok.inj (hp.symm.trans hp₁)
    obtain ⟨c₂, p₂, hc₂, hp₂, hpair₂⟩ := hstep
    obtain rfl := Except.ok.inj (hd.symm.trans hc₂)
    obtain rfl := Except.ok.inj (hq.symm.trans hp₂)
    rw [feed_pair_snoc, hpair, Result.ok_bind] at hpair₂
    exact hiff.mp hpair₂
  · intro hno
    refine ⟨_, _, hd, hq, ?_⟩
    rw [feed_pair_snoc, hpair, Result.ok_bind]
    exact hiff.mpr (hno c p hc hp)

end

/-- Over a sequence of votes the pair stays in step with two independent collectors exactly
if no vote that makes a certificate in the first collector means something to the second. -/
theorem collect_in_step_iff (cvs pvs : C) (votes : List (VerifyingKey × Vote)) {cvs' pvs' : C}
    (hcvs : Collector.feed cvs votes = .ok cvs') (hpvs : Collector.feed pvs votes = .ok pvs') :
    (∀ before after, votes = before ++ after → InStep cvs pvs before) ↔
      ∀ before v after, votes = before ++ v :: after → ∀ c p, Collector.feed cvs before = .ok c →
        Collector.feed pvs before = .ok p → ¬ (Completes c v.1 v.2 ∧ Changes p v.1 v.2) := by
  induction votes using List.reverseRecOn generalizing cvs' pvs' with
  | nil =>
    constructor
    · intro _ before v after h
      simp at h
    · intro _ before after h
      obtain ⟨rfl, -⟩ := List.append_eq_nil_iff.mp h.symm
      exact ⟨cvs, pvs, rfl, rfl, rfl⟩
  | append_singleton votes v ih =>
    have hcvs₀ := hcvs
    have hpvs₀ := hpvs
    rw [feed_snoc] at hcvs₀ hpvs₀
    obtain ⟨c₀, hc₀, -⟩ := Result.bind_eq_ok.mp hcvs₀
    obtain ⟨p₀, hp₀, -⟩ := Result.bind_eq_ok.mp hpvs₀
    have ih := ih hc₀ hp₀
    constructor
    · intro hsame before w after hsplit
      have hvotes : ∀ before after, votes = before ++ after → InStep cvs pvs before := by
        intro before after h
        exact hsame before (after ++ [v]) (by rw [h, List.append_assoc])
      rcases List.eq_nil_or_concat after with rfl | ⟨after, u, rfl⟩
      · obtain ⟨rfl, hv⟩ := List.append_inj' hsplit rfl
        cases hv
        exact (inStep_snoc (hvotes votes [] (by simp)) hcvs hpvs).mp (hsame _ [] (by simp))
      · rw [List.concat_eq_append, ← List.cons_append, ← List.append_assoc] at hsplit
        obtain ⟨hvotes', -⟩ := List.append_inj' hsplit rfl
        exact ih.mp hvotes before w after hvotes'
    · intro hno before after hsplit
      have hvotes := ih.mpr fun before w after h =>
        hno before w (after ++ [v]) (by rw [h]; simp)
      rcases List.eq_nil_or_concat after with rfl | ⟨after, u, rfl⟩
      · rw [List.append_nil] at hsplit
        rw [← hsplit]
        exact (inStep_snoc (hvotes votes [] (by simp)) hcvs hpvs).mpr (hno votes v [] rfl)
      · rw [List.concat_eq_append, ← List.append_assoc] at hsplit
        obtain ⟨hvotes', -⟩ := List.append_inj' hsplit rfl
        exact hvotes before after hvotes'

end ActiveCollectorPair

namespace Sample

/-- The set of validator 1 alone, whose vote is a quorum. -/
def soleValidator : ValidatorSet := ValidatorSet.new.put 1 1

def timeoutVotes : List (VerifyingKey × TimeoutVote) := [(1, timeoutVote 1), (2, timeoutVote 2)]

def soleCollector : TimeoutVoteCollector := .new 7 1 soleValidator

def fourCollector : TimeoutVoteCollector := .new 7 1 fourValidators

theorem isOk_feed {c : TimeoutVoteCollector} (h : (Collector.feed c timeoutVotes).isOk = true) :
    ∃ c', Collector.feed c timeoutVotes = .ok c' := by
  cases hfeed : Collector.feed c timeoutVotes with
  | error e =>
    rw [hfeed] at h
    cases h
  | ok c' => exact ⟨c', rfl⟩

end Sample

namespace ActiveCollectorPair

theorem collect_in_step_iff_timeoutVotes :
    (∀ before after, Sample.timeoutVotes = before ++ after →
        InStep Sample.fourCollector Sample.soleCollector before) ↔
      ∀ before v after, Sample.timeoutVotes = before ++ v :: after →
        ∀ c p, Collector.feed Sample.fourCollector before = .ok c →
          Collector.feed Sample.soleCollector before = .ok p →
          ¬ (Completes c v.1 v.2 ∧ Changes p v.1 v.2) := by
  obtain ⟨c, hc⟩ := Sample.isOk_feed (show (Collector.feed Sample.fourCollector
    Sample.timeoutVotes).isOk = true by decide +kernel)
  obtain ⟨p, hp⟩ := Sample.isOk_feed (show (Collector.feed Sample.soleCollector
    Sample.timeoutVotes).isOk = true by decide +kernel)
  exact collect_in_step_iff _ _ _ hc hp

/-- The vote of validator 1 is a quorum of the committed set, so the pair loses it for the
previous set. -/
theorem collect_loses_vote :
    ((feed ⟨Sample.soleCollector, some Sample.fourCollector⟩ [(1, Sample.timeoutVote 1)]).toOption.bind
      fun pair => pair.pvsCollector.map TimeoutVoteCollector.signatureSet) =
        some [none, none, none, none] ∧
    (Collector.feed Sample.fourCollector [(1, Sample.timeoutVote 1)]).toOption.map
      TimeoutVoteCollector.signatureSet =
        some [some (Sample.timeoutVote 1).signature, none, none, none] := by
  decide +kernel

end ActiveCollectorPair

end HotStuffRs
