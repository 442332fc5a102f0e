import HotStuffRs.Networking.Messages
import HotStuffRs.Queue.Keyed

namespace HotStuffRs

open Queue

namespace ProgressMessage

def chainId : ProgressMessage → ChainID
  | hotStuff msg => msg.chainId
  | pacemaker msg => msg.chainId
  | blockSyncAdvertise msg => msg.chainId

def view : ProgressMessage → Option ViewNumber
  | hotStuff msg => some msg.view
  | pacemaker msg => some msg.view
  | blockSyncAdvertise _ => none

end ProgressMessage

/-! ## Sizes -/

/-- `mem::size_of` of the types of keys and messages.  The layout of a type is up to the
compiler, but a key is not empty. -/
structure MemSizes where
  verifyingKey : Nat
  proposal : Nat
  nudge : Nat
  phaseVote : Nat
  newView : Nat
  timeoutVote : Nat
  advanceView : Nat
  advertiseBlock : Nat
  advertisePc : Nat
  verifyingKey_pos : 0 < verifyingKey

def HotStuffMessage.size (sizes : MemSizes) : HotStuffMessage → Nat
  | proposal _ => sizes.proposal
  | nudge _ => sizes.nudge
  | phaseVote _ => sizes.phaseVote
  | newView _ => sizes.newView

def PacemakerMessage.size (sizes : MemSizes) : PacemakerMessage → Nat
  | timeoutVote _ => sizes.timeoutVote
  | advanceView _ => sizes.advanceView

def BlockSyncAdvertiseMessage.size (sizes : MemSizes) : BlockSyncAdvertiseMessage → Nat
  | advertiseBlock _ => sizes.advertiseBlock
  | advertisePc _ => sizes.advertisePc

def ProgressMessage.size (sizes : MemSizes) : ProgressMessage → Nat
  | hotStuff msg => msg.size sizes
  | pacemaker msg => msg.size sizes
  | blockSyncAdvertise msg => msg.size sizes

/-- Messages that are for a view and can be buffered. -/
class Cacheable (M : Type) where
  view : M → ViewNumber
  size : MemSizes → M → Nat
  toProgressMessage : M → ProgressMessage
  view_eq : ∀ msg, (toProgressMessage msg).view = some (view msg)
  size_eq : ∀ sizes msg, (toProgressMessage msg).size sizes = size sizes msg

instance : Cacheable HotStuffMessage where
  view := HotStuffMessage.view
  size := HotStuffMessage.size
  toProgressMessage := .hotStuff
  view_eq _ := rfl
  size_eq _ _ := rfl

instance : Cacheable PacemakerMessage where
  view := PacemakerMessage.view
  size := PacemakerMessage.size
  toProgressMessage := .pacemaker
  view_eq _ := rfl
  size_eq _ _ := rfl

/-- `u64::checked_add`. -/
def U64.checkedAdd (a : U64) (b : Nat) : Option U64 :=
  if h : a.val + b < 2 ^ 64 then some ⟨a.val + b, h⟩ else none

/-- `u64::checked_sub`. -/
def U64.checkedSub (a : U64) (b : Nat) : Option U64 :=
  if b ≤ a.val then some ⟨a.val - b, by omega⟩ else none

theorem U64.checkedAdd_eq_some {a c : U64} {b : Nat} :
    U64.checkedAdd a b = some c ↔ a.val + b = c.val := by
  unfold checkedAdd
  split
  · simp [Fin.ext_iff]
  · simp only [reduceCtorEq, false_iff]
    omega

theorem U64.checkedSub_eq_some {a c : U64} {b : Nat} :
    U64.checkedSub a b = some c ↔ a.val = b + c.val := by
  unfold checkedSub
  split
  · simp only [Option.some.injEq, Fin.ext_iff]
    omega
  · simp only [reduceCtorEq, false_iff]
    omega

abbrev BufferSize := U64

/-! ## The buffer -/

/-- A buffer of messages for future views with their senders.  Nothing here looks at the
senders, and so what they are is left open. -/
structure ProgressMessageBuffer (S : Type) where
  bufferCapacity : BufferSize
  buffer : Keyed ViewNumber (S × ProgressMessage)
  bufferSize : BufferSize

namespace ProgressMessageBuffer

variable {S : Type}

def new (bufferCapacity : BufferSize) : ProgressMessageBuffer S where
  bufferCapacity := bufferCapacity
  buffer := Keyed.empty
  bufferSize := 0

/-- The bytes that a message counts for in the buffer. -/
def bytes (sizes : MemSizes) (m : S × ProgressMessage) : Nat :=
  m.2.size sizes + sizes.verifyingKey

/-- Remove just enough messages for the highest views to free the given number of bytes, and
give the messages removed, too. -/
def removeHighestViewedMsgs (sizes : MemSizes) (b : ProgressMessageBuffer S)
    (bytesToRemove : Nat) : Result (List (S × ProgressMessage) × ProgressMessageBuffer S) := do
  let (removed, buffer) := b.buffer.evict (bytes sizes) bytesToRemove
  let bytesRemoved := (removed.map (bytes sizes)).sum
  let bufferSize ← Result.unwrap (U64.checkedSub b.bufferSize bytesRemoved)
  return (removed, { b with buffer, bufferSize })

/-- Put a message at the end of the queue of its view. -/
def enqueue {M : Type} [Cacheable M] (sizes : MemSizes) (b : ProgressMessageBuffer S) (msg : M)
    (sender : S) : Result (ProgressMessageBuffer S) := do
  let bytesRequested := sizes.verifyingKey + Cacheable.size sizes msg
  let bufferSize ← Result.unwrap (U64.checkedAdd b.bufferSize bytesRequested)
  let buffer := b.buffer.pushBack (Cacheable.view msg) (sender, Cacheable.toProgressMessage msg)
  return { b with buffer, bufferSize }

/-- Try to insert a message: whether it was inserted, and which messages were removed to make
space for it. -/
def insert {M : Type} [Cacheable M] (sizes : MemSizes) (b : ProgressMessageBuffer S) (msg : M)
    (sender : S) : Result (Bool × List (S × ProgressMessage) × ProgressMessageBuffer S) := do
  let bytesRequested := sizes.verifyingKey + Cacheable.size sizes msg
  let newBufferSize := U64.checkedAdd b.bufferSize bytesRequested
  let bufferWillBeOverloaded := newBufferSize.all fun size => b.bufferCapacity < size
  let cacheMessageIfBufferWillBeOverloaded :=
    b.buffer.maxKey?.all fun maxView => Cacheable.view msg < maxView
  let (removed, b) ←
    if bufferWillBeOverloaded && cacheMessageIfBufferWillBeOverloaded then
      b.removeHighestViewedMsgs sizes bytesRequested
    else pure ([], b)
  if !bufferWillBeOverloaded ||
      (bufferWillBeOverloaded && cacheMessageIfBufferWillBeOverloaded) then
    let b ← b.enqueue sizes msg sender
    return (true, removed, b)
  else return (false, removed, b)

/-- Take the first message for `view` off the buffer. -/
def getMsg (b : ProgressMessageBuffer S) (view : ViewNumber) :
    Option (S × ProgressMessage) × ProgressMessageBuffer S :=
  let (msg, buffer) := b.buffer.popFront view
  (msg, { b with buffer })

/-- Remove the messages for views before the current one. -/
def removeExpiredMsgs (b : ProgressMessageBuffer S) (curView : ViewNumber) :
    ProgressMessageBuffer S :=
  { b with buffer := b.buffer.dropBelow curView }

variable {sizes : MemSizes} {b : ProgressMessageBuffer S}

/-- A message makes the buffer overflow just if it would do so on paper. -/
theorem overloaded_iff {need : Nat} :
    (U64.checkedAdd b.bufferSize need).all (fun size => b.bufferCapacity < size) = true ↔
      b.bufferCapacity.val < b.bufferSize.val + need := by
  have hcapacity := b.bufferCapacity.isLt
  unfold U64.checkedAdd
  split
  · rw [Option.all_some, decide_eq_true_eq, Fin.lt_def]
  · simp only [Option.all_none, true_iff]
    omega

theorem enqueue_eq_ok {M : Type} [Cacheable M] {msg : M} {sender : S}
    {b' : ProgressMessageBuffer S} :
    b.enqueue sizes msg sender = .ok b' ↔
      b.bufferSize.val + (sizes.verifyingKey + Cacheable.size sizes msg) = b'.bufferSize.val ∧
      b'.bufferCapacity = b.bufferCapacity ∧
      b'.buffer = b.buffer.pushBack (Cacheable.view msg) (sender, Cacheable.toProgressMessage msg) := by
  unfold enqueue
  simp only [Result.bind_eq_ok, Result.pure_eq, Except.ok.injEq]
  constructor
  · rintro ⟨size, hsize, rfl⟩
    refine ⟨?_, rfl, rfl⟩
    cases hadd : U64.checkedAdd b.bufferSize (sizes.verifyingKey + Cacheable.size sizes msg) with
    | none =>
      rw [hadd] at hsize
      cases hsize
    | some size' =>
      rw [hadd] at hsize
      cases hsize
      exact U64.checkedAdd_eq_some.mp hadd
  · rintro ⟨hsize, hcapacity, hbuffer⟩
    refine ⟨b'.bufferSize, ?_, ?_⟩
    · rw [U64.checkedAdd_eq_some.mpr hsize]
      rfl
    · obtain ⟨capacity, buffer, size⟩ := b'
      cases hcapacity
      cases hbuffer
      rfl

/-- A message that makes the buffer overflow is dropped, unless it has to wait for a view
before the highest one, or the buffer has no view. -/
theorem insert_eq {M : Type} [Cacheable M] (msg : M) (sender : S) :
    b.insert sizes msg sender =
      if b.bufferCapacity.val < b.bufferSize.val + (sizes.verifyingKey + Cacheable.size sizes msg) then
        if b.buffer.maxKey?.all (fun maxView => Cacheable.view msg < maxView) = true then do
          let (removed, b) ←
            b.removeHighestViewedMsgs sizes (sizes.verifyingKey + Cacheable.size sizes msg)
          let b ← b.enqueue sizes msg sender
          return (true, removed, b)
        else return (false, [], b)
      else do
        let b ← b.enqueue sizes msg sender
        return (true, [], b) := by
  unfold insert
  by_cases hoverloaded :
      b.bufferCapacity.val < b.bufferSize.val + (sizes.verifyingKey + Cacheable.size sizes msg)
  · simp only [if_pos hoverloaded, overloaded_iff.mpr hoverloaded, Bool.true_and, Bool.not_true,
      Bool.false_or]
    by_cases hcacheable :
        b.buffer.maxKey?.all (fun maxView => decide (Cacheable.view msg < maxView)) = true
    · simp only [hcacheable, if_true]
    · simp only [hcacheable]
      rfl
  · have hnot : (U64.checkedAdd b.bufferSize (sizes.verifyingKey + Cacheable.size sizes msg)).all
        (fun size => b.bufferCapacity < size) = false := by
      rw [← Bool.not_eq_true, overloaded_iff]
      exact hoverloaded
    simp only [if_neg hoverloaded, hnot]
    rfl

end ProgressMessageBuffer

/-! ## Receiving -/

/-- The receiving end of the poller, with the messages that are there or still to come in the
order of their arrival, and whether the poller hangs up after them. -/
structure ProgressMessageStub (S : Type) where
  receiver : List (S × ProgressMessage)
  hangsUp : Bool
  msgBuffer : ProgressMessageBuffer S

/-- What a call of `recv` ends with. -/
inductive Received (S : Type)
  /-- A message that was in the buffer. -/
  | buffered (m : S × ProgressMessage)
  /-- A message that was read from the poller just now. -/
  | fresh (m : S × ProgressMessage)
  | timeout
  | disconnected

/-- What a call of `recv` ends with, and which messages it has put into the buffer and removed
from it to make space. -/
structure Receipt (S : Type) where
  received : Received S
  cached : List (S × ProgressMessage)
  removed : List (S × ProgressMessage)

namespace ProgressMessageStub

variable {S : Type}

def new (receiver : List (S × ProgressMessage)) (hangsUp : Bool)
    (msgBufferCapacity : BufferSize) : ProgressMessageStub S where
  receiver := receiver
  hangsUp := hangsUp
  msgBuffer := .new msgBufferCapacity

/-- Cache a message if it is for a future view: what is put into the buffer, and what is
removed from it. -/
def cache (sizes : MemSizes) (b : ProgressMessageBuffer S) (curView : ViewNumber) (sender : S)
    (msg : ProgressMessage) :
    Result (List (S × ProgressMessage) × List (S × ProgressMessage) × ProgressMessageBuffer S) :=
  if msg.view.any (curView < ·) then
    match msg with
    | .hotStuff m => do
      let (inserted, removed, b) ← b.insert sizes m sender
      return (if inserted then [(sender, msg)] else [], removed, b)
    | .pacemaker m => do
      let (inserted, removed, b) ← b.insert sizes m sender
      return (if inserted then [(sender, msg)] else [], removed, b)
    | .blockSyncAdvertise _ => return ([], [], b)
  else return ([], [], b)

/-- Whether `recv` returns a message that it has just read. -/
def returnMsg (curView : ViewNumber) : ProgressMessage → Bool
  | .hotStuff msg => msg.view == curView
  | .pacemaker msg => curView ≤ msg.view
  | .blockSyncAdvertise _ => true

/-- Read messages from the poller until one is to be returned.  `time` is how often the loop
looks at the clock before the deadline has passed. -/
def poll (sizes : MemSizes) (chainId : ChainID) (curView : ViewNumber) :
    Nat → ProgressMessageStub S → Result (Receipt S × ProgressMessageStub S)
  | 0, stub => return (⟨.timeout, [], []⟩, stub)
  | time + 1, stub =>
    match stub.receiver with
    | [] => return (⟨if stub.hangsUp then .disconnected else .timeout, [], []⟩, stub)
    | (sender, msg) :: receiver =>
      if msg.chainId ≠ chainId then poll sizes chainId curView time { stub with receiver }
      else do
        let (cached, removed, msgBuffer) ← cache sizes stub.msgBuffer curView sender msg
        let stub := { stub with receiver, msgBuffer }
        if returnMsg curView msg then return (⟨.fresh (sender, msg), cached, removed⟩, stub)
        else
          let (receipt, stub) ← poll sizes chainId curView time stub
          return (⟨receipt.received, cached ++ receipt.cached, removed ++ receipt.removed⟩, stub)

def recv (sizes : MemSizes) (stub : ProgressMessageStub S) (chainId : ChainID)
    (curView : ViewNumber) (time : Nat) : Result (Receipt S × ProgressMessageStub S) :=
  -- Clear the buffer of messages for past views, and try to get one for the current view.
  let (msg, msgBuffer) := (stub.msgBuffer.removeExpiredMsgs curView).getMsg curView
  match msg with
  | some msg => return (⟨.buffered msg, [], []⟩, { stub with msgBuffer })
  | none => poll sizes chainId curView time { stub with msgBuffer }

end ProgressMessageStub

end HotStuffRs
