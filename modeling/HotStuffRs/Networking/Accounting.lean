import HotStuffRs.Networking.Receiving

/-
The accounting of the message buffer.

The size that the buffer keeps is right as long as nothing leaves the buffer but to make room:
messages that are taken off it, and those that expire, are not deducted.
-/

namespace HotStuffRs

open Queue

/-- The operations on the message buffer. -/
inductive BufferOp (S : Type) : Type 1
  | insert {M : Type} [Cacheable M] (msg : M) (sender : S)
  | getMsg (view : ViewNumber)
  | removeExpiredMsgs (curView : ViewNumber)
  | removeHighestViewedMsgs (bytesToRemove : Nat)

namespace ProgressMessageBuffer

variable {S : Type} {sizes : MemSizes} {b : ProgressMessageBuffer S}

/-- The bytes that an operation asks for. -/
def bytesRequested (sizes : MemSizes) : BufferOp S → Nat
  | @BufferOp.insert _ _ _ msg _ => sizes.verifyingKey + Cacheable.size sizes msg
  | _ => 0

/-- Perform an operation; `false` if it refuses a message. -/
def perform (sizes : MemSizes) (b : ProgressMessageBuffer S) :
    BufferOp S → Result (Bool × ProgressMessageBuffer S)
  | @BufferOp.insert _ _ _ msg sender => do
    let (inserted, _, b) ← b.insert sizes msg sender
    return (inserted, b)
  | .getMsg view => return (true, (b.getMsg view).2)
  | .removeExpiredMsgs curView => return (true, b.removeExpiredMsgs curView)
  | .removeHighestViewedMsgs bytesToRemove => do
    let (_, b) ← b.removeHighestViewedMsgs sizes bytesToRemove
    return (true, b)

def performAll (sizes : MemSizes) (b : ProgressMessageBuffer S) :
    List (BufferOp S) → Result (ProgressMessageBuffer S)
  | [] => return b
  | op :: ops => do
    let (_, b) ← b.perform sizes op
    performAll sizes b ops

/-- The bytes of the messages that are in the buffer. -/
def total (sizes : MemSizes) (b : ProgressMessageBuffer S) : Nat := b.buffer.size (bytes sizes)

/-- The size that is kept is that of the messages in the buffer, and within the capacity. -/
structure Accounted (sizes : MemSizes) (b : ProgressMessageBuffer S) : Prop where
  exact : b.bufferSize.val = b.total sizes
  within : b.bufferSize ≤ b.bufferCapacity

/-- The accounting is right after the operation, which does not refuse a message that there is
room for. -/
def AccountsFor (sizes : MemSizes) (b : ProgressMessageBuffer S) (op : BufferOp S) : Prop :=
  ∃ accepted b', b.perform sizes op = .ok (accepted, b') ∧ b'.Accounted sizes ∧
    (b.total sizes + bytesRequested sizes op ≤ b.bufferCapacity.val → accepted = true)

/-- The operation takes no message off the buffer, lets none expire, and does not let in a
message that is larger than the capacity. -/
def Balanced (sizes : MemSizes) (b : ProgressMessageBuffer S) : BufferOp S → Prop
  | @BufferOp.insert _ _ _ msg _ =>
    b.buffer.maxKey?.all (fun maxView => Cacheable.view msg < maxView) = true →
      sizes.verifyingKey + Cacheable.size sizes msg ≤ b.bufferCapacity.val
  | .getMsg view => b.buffer.queue view = []
  | .removeExpiredMsgs curView => b.buffer.below curView = []
  | .removeHighestViewedMsgs _ => True

theorem bytes_pos (sizes : MemSizes) (m : S × ProgressMessage) : 0 < bytes sizes m :=
  Nat.lt_of_lt_of_le sizes.verifyingKey_pos (Nat.le_add_left _ _)

theorem accounted_new (capacity : BufferSize) : (new capacity : ProgressMessageBuffer S).Accounted
    sizes where
  exact := rfl
  within := Fin.zero_le _

/-- What is removed to make space is deducted. -/
theorem Accounted.removeHighestViewedMsgs (h : b.Accounted sizes) (need : Nat) :
    ∃ removed b', b.removeHighestViewedMsgs sizes need = .ok (removed, b') ∧
      b'.Accounted sizes ∧ b'.bufferCapacity = b.bufferCapacity ∧
      (b'.bufferSize.val + need ≤ b.bufferSize.val ∨ b'.bufferSize.val = 0) := by
  have hsize := Keyed.size_evict (q := b.buffer) (f := bytes sizes) need
  have hexact := h.exact
  have hwithin : b.bufferSize.val ≤ b.bufferCapacity.val := h.within
  have henough := Keyed.evict_enough (q := b.buffer) (f := bytes sizes) need
  unfold ProgressMessageBuffer.removeHighestViewedMsgs
  rw [total] at hexact
  generalize b.buffer.evict (bytes sizes) need = result at hsize henough ⊢
  obtain ⟨removed, buffer⟩ := result
  dsimp only at hsize henough ⊢
  have hsub : U64.checkedSub b.bufferSize (removed.map (bytes sizes)).sum =
      some ⟨b.bufferSize.val - (removed.map (bytes sizes)).sum, by omega⟩ := by
    rw [U64.checkedSub_eq_some]
    dsimp only
    omega
  rw [hsub]
  refine ⟨removed, _, rfl, ⟨?_, ?_⟩, rfl, ?_⟩
  · show b.bufferSize.val - (removed.map (bytes sizes)).sum = buffer.size (bytes sizes)
    omega
  · show b.bufferSize.val - (removed.map (bytes sizes)).sum ≤ b.bufferCapacity.val
    omega
  · show b.bufferSize.val - (removed.map (bytes sizes)).sum + need ≤ b.bufferSize.val ∨
      b.bufferSize.val - (removed.map (bytes sizes)).sum = 0
    rcases henough with henough | rfl
    · left
      omega
    · right
      rw [Keyed.size_empty] at hsize
      omega

/-- Adding a message is counted, if the sum is still within the capacity. -/
theorem Accounted.enqueue_iff (h : b.Accounted sizes) {M : Type} [Cacheable M] (msg : M)
    (sender : S) :
    (∃ b', b.enqueue sizes msg sender = .ok b' ∧ b'.Accounted sizes) ↔
      b.bufferSize.val + (sizes.verifyingKey + Cacheable.size sizes msg) ≤ b.bufferCapacity.val := by
  have hexact := h.exact
  have hcapacity := b.bufferCapacity.isLt
  have hpush := Keyed.size_pushBack (bytes sizes) b.buffer (Cacheable.view msg)
    (sender, Cacheable.toProgressMessage msg)
  rw [bytes, Cacheable.size_eq] at hpush
  rw [total] at hexact
  simp only [enqueue_eq_ok]
  constructor
  · rintro ⟨b', ⟨hsize, hcap, -⟩, haccounted⟩
    have hwithin : b'.bufferSize.val ≤ b'.bufferCapacity.val := haccounted.within
    rw [hcap] at hwithin
    omega
  · intro hle
    refine ⟨{ b with
      buffer := b.buffer.pushBack (Cacheable.view msg) (sender, Cacheable.toProgressMessage msg)
      bufferSize := ⟨_, lt_of_le_of_lt hle hcapacity⟩ }, ⟨rfl, rfl, rfl⟩, ⟨?_, hle⟩⟩
    rw [total]
    dsimp only
    omega

theorem Accounted.insert_iff (h : b.Accounted sizes) {M : Type} [Cacheable M] (msg : M)
    (sender : S) : b.AccountsFor sizes (.insert msg sender) ↔ b.Balanced sizes (.insert msg sender) := by
  have hexact := h.exact
  have hwithin : b.bufferSize.val ≤ b.bufferCapacity.val := h.within
  simp only [AccountsFor, Balanced, perform, bytesRequested]
  rw [insert_eq]
  have henqueue := fun (b' : ProgressMessageBuffer S) (hb' : b'.Accounted sizes) =>
    hb'.enqueue_iff msg sender
  generalize sizes.verifyingKey + Cacheable.size sizes msg = need at henqueue ⊢
  by_cases hoverloaded : b.bufferCapacity.val < b.bufferSize.val + need
  · rw [if_pos hoverloaded]
    by_cases hcacheable :
        b.buffer.maxKey?.all (fun maxView => decide (Cacheable.view msg < maxView)) = true
    · -- Space is made, and then the message is let in, whatever its size.
      obtain ⟨removed, b', hremove, haccounted, hcapacity, hroom⟩ := h.removeHighestViewedMsgs need
      have hiff := henqueue b' haccounted
      rw [if_pos hcacheable, hremove]
      constructor
      · rintro ⟨accepted, b'', hperform, haccounted', -⟩ -
        cases henqueued : b'.enqueue sizes msg sender with
        | error e =>
          simp only [Result.ok_bind, henqueued, Result.error_bind, reduceCtorEq] at hperform
        | ok b₁ =>
          simp only [Result.ok_bind, henqueued, Result.pure_eq, Except.ok.injEq,
            Prod.mk.injEq] at hperform
          obtain ⟨-, rfl⟩ := hperform
          have hle := hiff.mp ⟨_, henqueued, haccounted'⟩
          rw [← hcapacity]
          omega
      · intro hfits
        have hneed := hfits hcacheable
        obtain ⟨b'', henqueued, haccounted'⟩ := hiff.mpr (by rw [hcapacity]; omega)
        refine ⟨true, b'', ?_, haccounted', fun _ => rfl⟩
        simp only [Result.ok_bind, henqueued, Result.pure_eq]
    · -- The message is refused, and there is no room for it.
      rw [if_neg hcacheable]
      refine iff_of_true ⟨false, b, rfl, h, fun hroom => ?_⟩ fun htrue => absurd htrue hcacheable
      omega
  · rw [if_neg hoverloaded]
    obtain ⟨b', henqueued, haccounted⟩ := (henqueue b h).mpr (by omega)
    refine iff_of_true ⟨true, b', ?_, haccounted, fun _ => rfl⟩ fun _ => by omega
    rw [henqueued]
    rfl

theorem Accounted.getMsg_iff (h : b.Accounted sizes) (view : ViewNumber) :
    b.AccountsFor sizes (.getMsg view) ↔ b.Balanced sizes (.getMsg view) := by
  have hexact := h.exact
  rw [total] at hexact
  have hsize := Keyed.size_popFront (bytes sizes) b.buffer view
  constructor
  · rintro ⟨_, b', hperform, haccounted, -⟩
    cases hperform
    have hexact' : b.bufferSize.val = (b.buffer.popFront view).2.size (bytes sizes) :=
      haccounted.exact
    cases hqueue : b.buffer.queue view with
    | nil => exact hqueue
    | cons m queue =>
      have hpos := bytes_pos sizes m
      have hfront : (b.buffer.popFront view).1 = some m := by
        rw [Keyed.popFront, hqueue]
        rfl
      rw [hfront, Option.map_some, Option.getD_some] at hsize
      omega
  · intro hnone
    have hnone : b.buffer.queue view = [] := hnone
    have hfront : (b.buffer.popFront view).1 = none := by
      rw [Keyed.popFront, hnone]
      rfl
    rw [hfront, Option.map_none, Option.getD_none] at hsize
    refine ⟨true, _, rfl, ⟨?_, h.within⟩, fun _ => rfl⟩
    show b.bufferSize.val = (b.buffer.popFront view).2.size (bytes sizes)
    omega

theorem Accounted.removeExpiredMsgs_iff (h : b.Accounted sizes) (curView : ViewNumber) :
    b.AccountsFor sizes (.removeExpiredMsgs curView) ↔
      b.Balanced sizes (.removeExpiredMsgs curView) := by
  have hexact := h.exact
  rw [total] at hexact
  have hsize := Keyed.size_dropBelow (bytes sizes) b.buffer curView
  constructor
  · rintro ⟨_, b', hperform, haccounted, -⟩
    cases hperform
    have hexact' : b.bufferSize.val = (b.buffer.dropBelow curView).size (bytes sizes) :=
      haccounted.exact
    cases hbelow : b.buffer.below curView with
    | nil => exact hbelow
    | cons m rest =>
      have hpos := bytes_pos sizes m
      rw [hbelow, List.map_cons, List.sum_cons] at hsize
      omega
  · intro hnone
    have hnone : b.buffer.below curView = [] := hnone
    rw [hnone, List.map_nil, List.sum_nil] at hsize
    refine ⟨true, _, rfl, ⟨?_, h.within⟩, fun _ => rfl⟩
    show b.bufferSize.val = (b.buffer.dropBelow curView).size (bytes sizes)
    omega

/-- Where the accounting is right, it stays so exactly under balanced operations. -/
theorem Accounted.accountsFor_iff (h : b.Accounted sizes) (op : BufferOp S) :
    b.AccountsFor sizes op ↔ b.Balanced sizes op := by
  cases op with
  | insert msg sender => exact h.insert_iff msg sender
  | getMsg view => exact h.getMsg_iff view
  | removeExpiredMsgs curView => exact h.removeExpiredMsgs_iff curView
  | removeHighestViewedMsgs bytesToRemove =>
    obtain ⟨removed, b', hremove, haccounted, -⟩ := h.removeHighestViewedMsgs bytesToRemove
    refine iff_of_true ⟨true, b', ?_, haccounted, fun _ => rfl⟩ trivial
    rw [perform, hremove]
    rfl

theorem performAll_append {ops ops' : List (BufferOp S)} :
    b.performAll sizes (ops ++ ops') = b.performAll sizes ops >>= fun b => b.performAll sizes ops' := by
  induction ops generalizing b with
  | nil => rfl
  | cons op ops ih =>
    rw [List.cons_append, performAll, performAll]
    cases b.perform sizes op with
    | error e => rfl
    | ok result =>
      obtain ⟨accepted, b'⟩ := result
      exact ih

/-- If each operation of a sequence is such that it keeps the accounting right, the sequence
keeps it right. -/
theorem accounted_of_performAll {P : ProgressMessageBuffer S → BufferOp S → Prop}
    (hP : ∀ b op, b.Accounted sizes → P b op → b.AccountsFor sizes op)
    {ops : List (BufferOp S)} {b' : ProgressMessageBuffer S}
    (hb : b.Accounted sizes) (h : b.performAll sizes ops = .ok b')
    (hops : ∀ before op after b₁, ops = before ++ op :: after →
      b.performAll sizes before = .ok b₁ → P b₁ op) : b'.Accounted sizes := by
  induction ops using List.reverseRecOn generalizing b' with
  | nil =>
    cases h
    exact hb
  | append_singleton ops op ih =>
    rw [performAll_append, Result.bind_eq_ok] at h
    obtain ⟨b₁, h₁, h⟩ := h
    have haccounted₁ : b₁.Accounted sizes := by
      refine ih h₁ fun before op' after b₂ hops' hb₂ => hops before op' (after ++ [op]) b₂ ?_ hb₂
      rw [hops', List.append_assoc, List.cons_append]
    obtain ⟨accepted, b₂, hperform, haccounted, -⟩ :=
      hP b₁ op haccounted₁ (hops ops op [] b₁ rfl h₁)
    rw [performAll, hperform] at h
    cases h
    exact haccounted

/-- The accounting of the buffer is right at all times, and no message is refused that there is
room for, exactly if no message is taken off the buffer, none expires, and none is let in that
is larger than the capacity. -/
theorem accounting_exact_iff (sizes : MemSizes) (capacity : BufferSize)
    (ops : List (BufferOp S)) :
    (∀ before op after b, ops = before ++ op :: after →
      (new capacity).performAll sizes before = .ok b → b.AccountsFor sizes op) ↔
    ∀ before op after b, ops = before ++ op :: after →
      (new capacity).performAll sizes before = .ok b → b.Balanced sizes op := by
  -- What holds of all operations holds of those before a given one.
  have hbefore : ∀ {P : ProgressMessageBuffer S → BufferOp S → Prop} {before op after},
      (∀ before op after b, ops = before ++ op :: after →
        (new capacity).performAll sizes before = .ok b → P b op) → ops = before ++ op :: after →
      ∀ before' op' after' b', before = before' ++ op' :: after' →
        (new capacity).performAll sizes before' = .ok b' → P b' op' := by
    rintro P _ op after h hops before' op' after' b' rfl hb'
    refine h before' op' (after' ++ op :: after) b' ?_ hb'
    rw [hops, List.append_assoc, List.cons_append]
  constructor
  · intro h before op after b hops hb
    have haccounted : b.Accounted sizes := accounted_of_performAll (fun _ _ _ => id)
      (accounted_new capacity) hb (hbefore h hops)
    exact (haccounted.accountsFor_iff op).mp (h before op after b hops hb)
  · intro h before op after b hops hb
    have haccounted : b.Accounted sizes := accounted_of_performAll
      (fun _ op hb => (hb.accountsFor_iff op).mpr) (accounted_new capacity) hb (hbefore h hops)
    exact (haccounted.accountsFor_iff op).mpr (h before op after b hops hb)

/-- A vote for a later view is buffered, and taken off the buffer in its view. -/
theorem accounting_not_exact : ¬∀ (sizes : MemSizes) (capacity : BufferSize)
    (ops before after : List (BufferOp VerifyingKey)) (op : BufferOp VerifyingKey)
    (b : ProgressMessageBuffer VerifyingKey), ops = before ++ op :: after →
    (new capacity).performAll sizes before = .ok b → b.AccountsFor sizes op := by
  intro h
  let sizes : MemSizes := ⟨32, 100, 100, 100, 100, 100, 100, 100, 100, by decide⟩
  let vote : HotStuffMessage := .phaseVote ⟨0, 5, 0, .generic, (0, 0)⟩
  let buffered := BufferOp.insert vote (3 : VerifyingKey)
  obtain ⟨accepted, b, hb, haccounted, -⟩ := h sizes 1000 [buffered, .getMsg 5] [] [.getMsg 5]
    buffered (new 1000) rfl rfl
  have haccounts := h sizes 1000 [buffered, .getMsg 5] [buffered] [] (.getMsg 5) b rfl
    (by rw [performAll, hb]; rfl)
  have hnone : b.buffer.queue 5 = [] := (haccounted.accountsFor_iff _).mp haccounts
  cases hb
  cases hnone

end ProgressMessageBuffer
end HotStuffRs
