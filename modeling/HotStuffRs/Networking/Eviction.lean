import HotStuffRs.Networking.Accounting
import HotStuffRs.Networking.Delivery

/-
Which messages the buffer gives up.

A message that there is no room for is let in if it is for a view before the highest one, and
then just enough messages are removed from the highest view on.  Nothing keeps this from going
on below the view of the message that is let in.
-/

namespace HotStuffRs

open Queue

namespace ProgressMessageBuffer

open ProgressMessageStub (Filed Caches removeHighestViewedMsgs_caches enqueue_caches insert_caches)

variable {S : Type} {sizes : MemSizes} {b b' : ProgressMessageBuffer S}

/-! ## Messages wait for their view -/

/-- No message of `dropped` is for an earlier view than one of `kept`. -/
def NoEarlier (kept dropped : List (S × ProgressMessage)) : Prop :=
  ∀ d ∈ dropped, ∀ k ∈ kept, ∃ v v', k.2.view = some v ∧ d.2.view = some v' ∧ v ≤ v'

theorem filed_new (capacity : BufferSize) : Filed (new capacity : ProgressMessageBuffer S) := by
  intro v m hm
  cases hm

theorem filed_perform (hfiled : Filed b) {op : BufferOp S} {accepted : Bool}
    (h : b.perform sizes op = .ok (accepted, b')) : Filed b' := by
  cases op with
  | insert msg sender =>
    simp only [perform, Result.bind_eq_ok, Result.pure_eq, Except.ok.injEq, Prod.mk.injEq] at h
    obtain ⟨⟨inserted, removed, b₁⟩, hinsert, rfl, rfl⟩ := h
    exact (insert_caches hfiled hinsert).filed hfiled
  | getMsg view =>
    cases h
    intro v m hm
    have hqueue : m ∈ (b.buffer.popFront view).2.queue v := hm
    rw [Keyed.queue_popFront] at hqueue
    split at hqueue
    · rename_i hv
      rw [hv]
      exact hfiled view m (List.mem_of_mem_tail hqueue)
    · exact hfiled v m hqueue
  | removeExpiredMsgs curView =>
    cases h
    intro v m hm
    have hqueue : m ∈ (b.buffer.dropBelow curView).queue v := hm
    rw [Keyed.queue_dropBelow] at hqueue
    split at hqueue
    · exact hfiled v m hqueue
    · cases hqueue
  | removeHighestViewedMsgs bytesToRemove =>
    simp only [perform, Result.bind_eq_ok, Result.pure_eq, Except.ok.injEq, Prod.mk.injEq] at h
    obtain ⟨⟨removed, b₁⟩, hremove, rfl, rfl⟩ := h
    exact (removeHighestViewedMsgs_caches hfiled hremove).filed hfiled

theorem filed_performAll {ops : List (BufferOp S)} (hfiled : Filed b)
    (h : b.performAll sizes ops = .ok b') : Filed b' := by
  induction ops generalizing b with
  | nil =>
    cases h
    exact hfiled
  | cons op ops ih =>
    rw [performAll, Result.bind_eq_ok] at h
    obtain ⟨⟨accepted, b₁⟩, hperform, hrest⟩ := h
    exact ih (filed_perform hfiled hperform) hrest

/-! ## What is removed -/

theorem removeHighestViewedMsgs_eq_ok {need : Nat} {removed : List (S × ProgressMessage)}
    (h : b.removeHighestViewedMsgs sizes need = .ok (removed, b')) :
    removed = (b.buffer.evict (bytes sizes) need).1 ∧
      b'.buffer = (b.buffer.evict (bytes sizes) need).2 := by
  simp only [removeHighestViewedMsgs, Result.bind_eq_ok, Result.pure_eq, Except.ok.injEq,
    Prod.mk.injEq] at h
  obtain ⟨bufferSize, -, rfl, rfl⟩ := h
  exact ⟨rfl, rfl⟩

/-- What is removed is for no earlier view than what is left. -/
theorem noEarlier_removeHighestViewedMsgs (hfiled : Filed b) {need : Nat}
    {removed : List (S × ProgressMessage)}
    (h : b.removeHighestViewedMsgs sizes need = .ok (removed, b')) :
    NoEarlier b'.buffer.all removed := by
  have hfiled' : Filed b' := (removeHighestViewedMsgs_caches hfiled h).filed hfiled
  obtain ⟨rfl, hbuffer⟩ := removeHighestViewedMsgs_eq_ok h
  intro d hd k hk
  obtain ⟨v, hv⟩ := Keyed.mem_all.mp hk
  have hleft : k ∈ (b.buffer.evict (bytes sizes) need).2.queue v := hbuffer ▸ hv
  obtain ⟨v', hv', hle⟩ := Keyed.evict_highest hfiled hd hleft
  exact ⟨v, v', hfiled' v k hv, hv', hle⟩

/-- What is removed is for no earlier view than `view` exactly if the messages for views from
that on are enough, or there are no others. -/
theorem removed_from_iff (hfiled : Filed b) {need : Nat} {removed : List (S × ProgressMessage)}
    (h : b.removeHighestViewedMsgs sizes need = .ok (removed, b')) (view : ViewNumber) :
    (∀ d ∈ removed, ∃ v, d.2.view = some v ∧ view ≤ v) ↔
      need ≤ (b.buffer.dropBelow view).size (bytes sizes) ∨ b.buffer.below view = [] := by
  obtain ⟨rfl, -⟩ := removeHighestViewedMsgs_eq_ok h
  exact Keyed.evict_from_iff hfiled need view

/-- The messages for views from that of `msg` on make room for it, or none is for an earlier
view, if it is let in at all. -/
def MakesRoom {M : Type} [Cacheable M] (sizes : MemSizes) (b : ProgressMessageBuffer S) (msg : M) :
    Prop :=
  b.buffer.maxKey?.all (fun maxView => Cacheable.view msg < maxView) = true →
    sizes.verifyingKey + Cacheable.size sizes msg ≤
        (b.buffer.dropBelow (Cacheable.view msg)).size (bytes sizes) ∨
      b.buffer.below (Cacheable.view msg) = []

section

variable {M : Type} [Cacheable M] {msg : M} {sender : S} {inserted : Bool}
variable {removed : List (S × ProgressMessage)}

/-- The message that is let in comes on top of what is left. -/
theorem noEarlier_enqueue_iff (h : b.enqueue sizes msg sender = .ok b')
    (hleft : NoEarlier b.buffer.all removed) :
    NoEarlier b'.buffer.all removed ↔
      ∀ d ∈ removed, ∃ v, d.2.view = some v ∧ Cacheable.view msg ≤ v := by
  obtain ⟨-, -, hbuffer⟩ := enqueue_eq_ok.mp h
  have hview := Cacheable.view_eq msg
  have hmem : ∀ k, k ∈ b'.buffer.all ↔
      k = (sender, Cacheable.toProgressMessage msg) ∨ k ∈ b.buffer.all := by
    intro k
    rw [hbuffer, Keyed.mem_all, Keyed.mem_all]
    constructor
    · rintro ⟨v, hv⟩
      rw [Keyed.queue_pushBack] at hv
      split at hv
      · rcases List.mem_append.mp hv with hv | hv
        · exact .inr ⟨_, hv⟩
        · exact .inl (List.mem_singleton.mp hv)
      · exact .inr ⟨v, hv⟩
    · rintro (rfl | ⟨v, hv⟩)
      · refine ⟨Cacheable.view msg, ?_⟩
        rw [Keyed.queue_pushBack, if_pos rfl]
        exact List.mem_append_right _ (List.mem_singleton_self _)
      · refine ⟨v, ?_⟩
        rw [Keyed.queue_pushBack]
        split
        · rename_i heq
          exact List.mem_append_left _ (heq ▸ hv)
        · exact hv
  constructor
  · intro hall d hd
    obtain ⟨v, v', hv, hv', hle⟩ := hall d hd _ ((hmem _).mpr (.inl rfl))
    obtain rfl : Cacheable.view msg = v := Option.some.inj (hview.symm.trans hv)
    exact ⟨v', hv', hle⟩
  · intro hfrom d hd k hk
    rcases (hmem k).mp hk with rfl | hk
    · obtain ⟨v, hv, hle⟩ := hfrom d hd
      exact ⟨_, v, hview, hv, hle⟩
    · exact hleft d hd k hk

/-- A message that is refused is for no earlier view than those in the buffer. -/
theorem noEarlier_refused (hfiled : Filed b)
    (hrefused : ¬b.buffer.maxKey?.all (fun maxView => Cacheable.view msg < maxView) = true) :
    NoEarlier b.buffer.all [(sender, Cacheable.toProgressMessage msg)] := by
  intro d hd k hk
  obtain rfl := List.mem_singleton.mp hd
  obtain ⟨v, hv⟩ := Keyed.mem_all.mp hk
  refine ⟨v, _, hfiled v k hv, Cacheable.view_eq msg, ?_⟩
  cases hmax : b.buffer.maxKey? with
  | none =>
    rw [hmax] at hrefused
    exact absurd rfl hrefused
  | some maxView =>
    rw [hmax, Option.all_some, decide_eq_true_eq, not_lt] at hrefused
    exact (Keyed.le_maxKey hmax hv).trans hrefused

end

/-- Where a message makes the buffer overflow, what is dropped for it, be it the message
itself, is for no earlier view than what stays of the messages before, and of each view it is
what was buffered last.  It is for no earlier view than all that is buffered then, the message
included, exactly if the messages for views from that of the message on make room for it. -/
theorem dropped_noEarlier_iff {capacity : BufferSize} {ops : List (BufferOp S)}
    (hb : (new capacity).performAll sizes ops = .ok b) {M : Type} [Cacheable M] {msg : M}
    {sender : S} {inserted : Bool} {removed : List (S × ProgressMessage)}
    (hover : b.bufferCapacity.val <
      b.bufferSize.val + (sizes.verifyingKey + Cacheable.size sizes msg))
    (h : b.insert sizes msg sender = .ok (inserted, removed, b')) :
    let m := (sender, Cacheable.toProgressMessage msg)
    let dropped := if inserted then removed else m :: removed
    (∃ left, Caches b [] removed left ∧ Caches left (if inserted then [m] else []) [] b' ∧
      NoEarlier left.buffer.all dropped) ∧
    (NoEarlier b'.buffer.all dropped ↔ b.MakesRoom sizes msg) := by
  have hfiled : Filed b := filed_performAll (filed_new capacity) hb
  rw [insert_eq, if_pos hover] at h
  by_cases hcacheable : b.buffer.maxKey?.all (fun maxView => Cacheable.view msg < maxView) = true
  · rw [if_pos hcacheable] at h
    simp only [Result.bind_eq_ok, Result.pure_eq, Except.ok.injEq, Prod.mk.injEq] at h
    obtain ⟨⟨removed', left⟩, hremove, b₂, henqueue, rfl, rfl, rfl⟩ := h
    have hcaches := removeHighestViewedMsgs_caches hfiled hremove
    have hleft := noEarlier_removeHighestViewedMsgs hfiled hremove
    refine ⟨⟨left, hcaches, enqueue_caches henqueue, hleft⟩, ?_⟩
    refine (noEarlier_enqueue_iff henqueue hleft).trans ?_
    refine (removed_from_iff hfiled hremove (Cacheable.view msg)).trans ?_
    exact ⟨fun hroom _ => hroom, fun hroom => hroom hcacheable⟩
  · rw [if_neg hcacheable] at h
    obtain ⟨rfl, rfl, rfl⟩ : false = inserted ∧ [] = removed ∧ b = b' := by
      simpa [Prod.mk.injEq] using h
    have hrefused : NoEarlier b.buffer.all [(sender, Cacheable.toProgressMessage msg)] :=
      noEarlier_refused hfiled hcacheable
    exact ⟨⟨b, .refl b, .refl b, hrefused⟩, iff_of_true hrefused fun h => absurd h hcacheable⟩

/-! A proposal takes more room than a vote. -/

namespace Sample

def memSizes : MemSizes := ⟨192, 192, 96, 120, 96, 120, 96, 112, 80, by decide⟩

def vote (view : ViewNumber) : HotStuffMessage := .phaseVote ⟨7, view, 0, .generic, (0, 0)⟩

def proposal : HotStuffMessage := .proposal ⟨7, 4, ⟨0, 1, .genesisPc, 0, []⟩⟩

/-- Votes for some views fill the buffer. -/
def votes (views : List ViewNumber) : List (BufferOp VerifyingKey) :=
  views.map fun view => .insert (vote view) 3

end Sample

theorem dropped_noEarlier_iff_two_votes : ∃ b b' removed,
    (new 936).performAll Sample.memSizes (Sample.votes [3, 5, 5]) = .ok b ∧
    b.insert Sample.memSizes Sample.proposal 1 = .ok (true, removed, b') ∧ removed.length = 2 ∧
    NoEarlier b'.buffer.all removed := by
  obtain ⟨b, hb⟩ : ∃ b, (new 936).performAll Sample.memSizes (Sample.votes [3, 5, 5]) = .ok b :=
    ⟨_, rfl⟩
  obtain ⟨⟨b', removed⟩, hinsert, hlength⟩ : ∃ p : ProgressMessageBuffer VerifyingKey × _,
      b.insert Sample.memSizes Sample.proposal 1 = .ok (true, p.2, p.1) ∧ p.2.length = 2 := by
    cases hb
    exact ⟨(_, _), rfl, rfl⟩
  have hover : b.bufferCapacity.val < b.bufferSize.val +
      (Sample.memSizes.verifyingKey + Cacheable.size Sample.memSizes Sample.proposal) := by
    cases hb
    decide
  refine ⟨b, b', removed, hb, hinsert, hlength,
    (dropped_noEarlier_iff hb hover hinsert).2.mpr fun _ => .inl ?_⟩
  cases hb
  decide

/-- Of two votes that make way for a proposal, one is for an earlier view. -/
theorem drops_earlier_view : ¬∀ (sizes : MemSizes) (capacity : BufferSize)
    (ops : List (BufferOp VerifyingKey)) (b b' : ProgressMessageBuffer VerifyingKey)
    (msg : HotStuffMessage) (sender : VerifyingKey) (inserted : Bool)
    (removed : List (VerifyingKey × ProgressMessage)),
    (new capacity).performAll sizes ops = .ok b →
    b.bufferCapacity.val < b.bufferSize.val + (sizes.verifyingKey + Cacheable.size sizes msg) →
    b.insert sizes msg sender = .ok (inserted, removed, b') →
    NoEarlier b'.buffer.all (if inserted then removed else (sender, .hotStuff msg) :: removed) := by
  intro h
  obtain ⟨b, hb⟩ : ∃ b, (new 624).performAll Sample.memSizes (Sample.votes [3, 5]) = .ok b :=
    ⟨_, rfl⟩
  obtain ⟨b', hinsert, hmem⟩ : ∃ b', b.insert Sample.memSizes Sample.proposal 1 = .ok (true,
      [((3 : VerifyingKey), .hotStuff (Sample.vote 5)), (3, .hotStuff (Sample.vote 3))], b') ∧
      ((1 : VerifyingKey), ProgressMessage.hotStuff Sample.proposal) ∈ b'.buffer.all := by
    cases hb
    exact ⟨_, rfl, List.mem_singleton_self _⟩
  have hover : b.bufferCapacity.val < b.bufferSize.val +
      (Sample.memSizes.verifyingKey + Cacheable.size Sample.memSizes Sample.proposal) := by
    cases hb
    decide
  obtain ⟨v, v', hv, hv', hle⟩ := h _ _ _ b b' _ _ _ _ hb hover hinsert
    (3, .hotStuff (Sample.vote 3)) (List.mem_cons_of_mem _ (List.mem_singleton_self _)) _ hmem
  cases hv
  cases hv'
  exact absurd hle (by decide)

end ProgressMessageBuffer
end HotStuffRs
