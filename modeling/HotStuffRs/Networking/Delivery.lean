import HotStuffRs.Networking.Receiving
import Mathlib.Data.List.Count

/-
View-aware delivery.

What a receiving end returns over any number of calls, when the current view never goes back.
Each message counts once for each time that it arrives: the senders can be of any type, and so
they may carry the number of the arrival.
-/

namespace HotStuffRs

open Queue

namespace Received

variable {S : Type}

def buffered? : Received S → Option (S × ProgressMessage)
  | buffered m => some m
  | _ => none

def fresh? : Received S → Option (S × ProgressMessage)
  | fresh m => some m
  | _ => none

def message? : Received S → Option (S × ProgressMessage)
  | buffered m | fresh m => some m
  | _ => none

end Received

/-- Messages for a view. -/
def forView {S : Type} (view : ViewNumber) (ms : List (S × ProgressMessage)) :
    List (S × ProgressMessage) :=
  ms.filter fun m => m.2.view == some view

theorem forView_append {S : Type} (view : ViewNumber) (ms ms' : List (S × ProgressMessage)) :
    forView view (ms ++ ms') = forView view ms ++ forView view ms' :=
  List.filter_append ..

/-- What some calls have returned from the buffer, and what from the poller, and what they have
put into the buffer and removed from it to make space. -/
structure Deliveries (S : Type) where
  buffered : List (S × ProgressMessage)
  fresh : List (S × ProgressMessage)
  cached : List (S × ProgressMessage)
  removed : List (S × ProgressMessage)

namespace Deliveries

variable {S : Type}

def none : Deliveries S := ⟨[], [], [], []⟩

def add (d : Deliveries S) (receipt : Receipt S) : Deliveries S where
  buffered := d.buffered ++ receipt.received.buffered?.toList
  fresh := d.fresh ++ receipt.received.fresh?.toList
  cached := d.cached ++ receipt.cached
  removed := d.removed ++ receipt.removed

def addAll (d : Deliveries S) (receipts : List (ViewNumber × Receipt S)) : Deliveries S :=
  receipts.foldl (fun d r => d.add r.2) d

@[simp] theorem addAll_nil (d : Deliveries S) : d.addAll [] = d := rfl

@[simp] theorem addAll_cons (d : Deliveries S) (r : ViewNumber × Receipt S)
    (receipts : List (ViewNumber × Receipt S)) :
    d.addAll (r :: receipts) = (d.add r.2).addAll receipts := rfl

theorem add_buffered (d : Deliveries S) (m : S × ProgressMessage) :
    d.add ⟨.buffered m, [], []⟩ = { d with buffered := d.buffered ++ [m] } := by
  simp [add, Received.buffered?, Received.fresh?]

/-- What is cached and removed before the rest of a call counts for the call. -/
theorem add_before (d : Deliveries S) (receipt : Receipt S)
    (cached removed : List (S × ProgressMessage)) :
    d.add ⟨receipt.received, cached ++ receipt.cached, removed ++ receipt.removed⟩ =
      Deliveries.add { d with cached := d.cached ++ cached, removed := d.removed ++ removed }
        receipt := by
  simp [add, List.append_assoc]

end Deliveries

namespace ProgressMessageStub

variable {S : Type}

/-- Some calls of `recv`, each with the current view and the time that it has. -/
def recvAll (sizes : MemSizes) (chainId : ChainID) (stub : ProgressMessageStub S) :
    List (ViewNumber × Nat) → Result (List (ViewNumber × Receipt S) × ProgressMessageStub S)
  | [] => return ([], stub)
  | (curView, time) :: calls => do
    let (receipt, stub) ← stub.recv sizes chainId curView time
    let (receipts, stub) ← recvAll sizes chainId stub calls
    return ((curView, receipt) :: receipts, stub)

theorem recvAll_cons_eq_ok {sizes : MemSizes} {chainId : ChainID}
    {stub stub' : ProgressMessageStub S} {call : ViewNumber × Nat}
    {calls : List (ViewNumber × Nat)} {receipts : List (ViewNumber × Receipt S)} :
    stub.recvAll sizes chainId (call :: calls) = .ok (receipts, stub') ↔
      ∃ receipt stub₁ rest, stub.recv sizes chainId call.1 call.2 = .ok (receipt, stub₁) ∧
        stub₁.recvAll sizes chainId calls = .ok (rest, stub') ∧
        receipts = (call.1, receipt) :: rest := by
  obtain ⟨curView, time⟩ := call
  simp only [recvAll, Result.bind_eq_ok, Result.pure_eq, Except.ok.injEq, Prod.mk.injEq]
  constructor
  · rintro ⟨⟨receipt, stub₁⟩, hrecv, ⟨rest, stub₂⟩, hrest, rfl, rfl⟩
    exact ⟨receipt, stub₁, rest, hrecv, hrest, rfl⟩
  · rintro ⟨receipt, stub₁, rest, hrecv, hrest, rfl⟩
    exact ⟨⟨receipt, stub₁⟩, hrecv, ⟨rest, stub'⟩, hrest, rfl, rfl⟩

theorem recvAll_views {sizes : MemSizes} {chainId : ChainID} {stub stub' : ProgressMessageStub S}
    {calls : List (ViewNumber × Nat)} {receipts : List (ViewNumber × Receipt S)}
    (h : stub.recvAll sizes chainId calls = .ok (receipts, stub')) :
    receipts.map Prod.fst = calls.map Prod.fst := by
  induction calls generalizing stub receipts with
  | nil =>
    cases h
    rfl
  | cons call calls ih =>
    obtain ⟨receipt, stub₁, rest, -, hrest, rfl⟩ := recvAll_cons_eq_ok.mp h
    rw [List.map_cons, List.map_cons, ih hrest]

/-! ## Putting a message into the buffer -/

/-- Whatever waits in a queue is for its view, and from the right chain. -/
def Sorted (chainId : ChainID) (b : ProgressMessageBuffer S) : Prop :=
  ∀ v, ∀ m ∈ b.buffer.queue v, m.2.view = some v ∧ m.2.chainId = chainId

/-- Whatever waits in a queue is for its view. -/
def Filed (b : ProgressMessageBuffer S) : Prop := ∀ v, ∀ m ∈ b.buffer.queue v, m.2.view = some v

theorem Sorted.filed {chainId : ChainID} {b : ProgressMessageBuffer S} (h : Sorted chainId b) :
    Filed b := fun v m hm => (h v m hm).1

/-- From `b`, `removed` is removed to make space, and then `cached` is put into it. -/
def Caches (b : ProgressMessageBuffer S) (cached removed : List (S × ProgressMessage))
    (b' : ProgressMessageBuffer S) : Prop :=
  ∀ v, ∃ left, b.buffer.queue v = left ++ (forView v removed).reverse ∧
    b'.buffer.queue v = left ++ forView v cached

theorem Caches.refl (b : ProgressMessageBuffer S) : Caches b [] [] b := fun v =>
  ⟨b.buffer.queue v, (List.append_nil _).symm, (List.append_nil _).symm⟩

section

variable {sizes : MemSizes} {chainId : ChainID} {b b' : ProgressMessageBuffer S}

theorem forView_singleton {v w : ViewNumber} {m : S × ProgressMessage} (h : m.2.view = some w) :
    forView v [m] = if v = w then [m] else [] := by
  unfold forView
  by_cases hv : v = w
  · rw [if_pos hv, List.filter_cons_of_pos (by rw [h, hv, beq_self_eq_true]), List.filter_nil]
  · have hne : (m.2.view == some v) = false := by
      rw [h, beq_eq_false_iff_ne, ne_eq, Option.some.injEq]
      exact fun heq => hv heq.symm
    rw [if_neg hv, List.filter_cons_of_neg (by rw [hne]; exact Bool.false_ne_true),
      List.filter_nil]

theorem enqueue_caches {M : Type} [Cacheable M] {msg : M} {sender : S}
    (h : b.enqueue sizes msg sender = .ok b') :
    Caches b [(sender, Cacheable.toProgressMessage msg)] [] b' := by
  intro v
  obtain ⟨-, -, hbuffer⟩ := ProgressMessageBuffer.enqueue_eq_ok.mp h
  refine ⟨b.buffer.queue v, (List.append_nil _).symm, ?_⟩
  rw [hbuffer, Keyed.queue_pushBack, forView_singleton (Cacheable.view_eq msg)]
  by_cases hv : v = Cacheable.view msg
  · rw [if_pos hv, if_pos hv, hv]
  · rw [if_neg hv, if_neg hv, List.append_nil]

theorem removeHighestViewedMsgs_caches {need : Nat} {removed : List (S × ProgressMessage)}
    (hfiled : Filed b) (h : b.removeHighestViewedMsgs sizes need = .ok (removed, b')) :
    Caches b [] removed b' := by
  intro v
  simp only [ProgressMessageBuffer.removeHighestViewedMsgs, Result.bind_eq_ok, Result.pure_eq,
    Except.ok.injEq, Prod.mk.injEq] at h
  obtain ⟨bufferSize, -, rfl, rfl⟩ := h
  exact ⟨_, Keyed.queue_evict hfiled need v, (List.append_nil _).symm⟩

theorem insert_caches {M : Type} [Cacheable M] {msg : M} {sender : S} {inserted : Bool}
    {removed : List (S × ProgressMessage)} (hfiled : Filed b)
    (h : b.insert sizes msg sender = .ok (inserted, removed, b')) :
    Caches b (if inserted then [(sender, Cacheable.toProgressMessage msg)] else []) removed b' := by
  rw [ProgressMessageBuffer.insert_eq] at h
  split at h
  · split at h
    · simp only [Result.bind_eq_ok, Result.pure_eq, Except.ok.injEq, Prod.mk.injEq] at h
      obtain ⟨⟨removed', b₁⟩, hremove, b₂, henqueue, rfl, rfl, rfl⟩ := h
      intro v
      obtain ⟨left, hb, hb₁⟩ := removeHighestViewedMsgs_caches hfiled hremove v
      obtain ⟨left', hb₁', hb₂⟩ := enqueue_caches henqueue v
      have hleft : left' = left := by
        rw [hb₁'] at hb₁
        simpa [forView] using hb₁
      exact ⟨left, hb, hleft ▸ hb₂⟩
    · cases h
      exact Caches.refl b
  · simp only [Result.bind_eq_ok, Result.pure_eq, Except.ok.injEq, Prod.mk.injEq] at h
    obtain ⟨b₂, henqueue, rfl, rfl, rfl⟩ := h
    exact enqueue_caches henqueue

/-- A message is cached only if it is for a future view. -/
theorem cache_caches {curView : ViewNumber} {sender : S} {msg : ProgressMessage}
    {cached removed : List (S × ProgressMessage)} (hsorted : Sorted chainId b)
    (h : cache sizes b curView sender msg = .ok (cached, removed, b')) :
    Caches b cached removed b' ∧
      (cached = [] ∨ cached = [(sender, msg)] ∧ ∃ v, msg.view = some v ∧ curView < v) := by
  have hview : ∀ v, msg.view = some v → msg.view.any (curView < ·) = true → curView < v := by
    intro v hv hany
    rw [hv, Option.any_some, decide_eq_true_eq] at hany
    exact hany
  have hcached : ∀ inserted : Bool, ∀ v, msg.view = some v → curView < v →
      (if inserted then [(sender, msg)] else []) = [] ∨
        (if inserted then [(sender, msg)] else []) = [(sender, msg)] ∧
          ∃ v, msg.view = some v ∧ curView < v := by
    intro inserted v hv hlt
    cases inserted with
    | false => exact .inl rfl
    | true => exact .inr ⟨rfl, v, hv, hlt⟩
  unfold cache at h
  split at h
  · rename_i hany
    cases msg with
    | hotStuff m =>
      simp only [Result.bind_eq_ok, Result.pure_eq, Except.ok.injEq, Prod.mk.injEq] at h
      obtain ⟨⟨inserted, removed', b₁⟩, hinsert, rfl, rfl, rfl⟩ := h
      exact ⟨insert_caches hsorted.filed hinsert, hcached inserted m.view rfl (hview _ rfl hany)⟩
    | pacemaker m =>
      simp only [Result.bind_eq_ok, Result.pure_eq, Except.ok.injEq, Prod.mk.injEq] at h
      obtain ⟨⟨inserted, removed', b₁⟩, hinsert, rfl, rfl, rfl⟩ := h
      exact ⟨insert_caches hsorted.filed hinsert, hcached inserted m.view rfl (hview _ rfl hany)⟩
    | blockSyncAdvertise m =>
      cases h
      exact ⟨Caches.refl b, .inl rfl⟩
  · cases h
    exact ⟨Caches.refl b, .inl rfl⟩

end

/-! ## Reading from the poller -/

/-- Reading ends without a message, drops one from another chain, returns one, or goes on. -/
theorem poll_induction {sizes : MemSizes} {chainId : ChainID} {curView : ViewNumber}
    {motive : ProgressMessageStub S → Receipt S → ProgressMessageStub S → Prop}
    (stop : ∀ stub received, received.message? = none → motive stub ⟨received, [], []⟩ stub)
    (drop : ∀ stub m receiver receipt stub', stub.receiver = m :: receiver →
      motive { stub with receiver } receipt stub' → motive stub receipt stub')
    (ret : ∀ stub m receiver cached removed msgBuffer, stub.receiver = m :: receiver →
      m.2.chainId = chainId →
      cache sizes stub.msgBuffer curView m.1 m.2 = .ok (cached, removed, msgBuffer) →
      returnMsg curView m.2 = true →
      motive stub ⟨.fresh m, cached, removed⟩ { stub with receiver, msgBuffer })
    (goOn : ∀ stub m receiver cached removed msgBuffer receipt stub',
      stub.receiver = m :: receiver → m.2.chainId = chainId →
      cache sizes stub.msgBuffer curView m.1 m.2 = .ok (cached, removed, msgBuffer) →
      motive { stub with receiver, msgBuffer } receipt stub' →
      motive stub ⟨receipt.received, cached ++ receipt.cached, removed ++ receipt.removed⟩ stub')
    {time : Nat} : ∀ {stub : ProgressMessageStub S} {receipt : Receipt S}
      {stub' : ProgressMessageStub S},
      poll sizes chainId curView time stub = .ok (receipt, stub') → motive stub receipt stub' := by
  induction time with
  | zero =>
    intro stub receipt stub' h
    cases h
    exact stop stub .timeout rfl
  | succ time ih =>
    intro stub receipt stub' h
    obtain ⟨receiver, hangsUp, msgBuffer⟩ := stub
    unfold poll at h
    cases receiver with
    | nil =>
      cases h
      cases hangsUp with
      | true => exact stop ⟨[], true, msgBuffer⟩ .disconnected rfl
      | false => exact stop ⟨[], false, msgBuffer⟩ .timeout rfl
    | cons m receiver =>
      obtain ⟨sender, msg⟩ := m
      dsimp only at h
      split at h
      · exact drop _ _ receiver _ _ rfl (ih h)
      · rename_i hchain
        simp only [Result.bind_eq_ok] at h
        obtain ⟨⟨cached, removed, msgBuffer'⟩, hcache, h⟩ := h
        split at h
        · rename_i hreturn
          cases h
          exact ret _ _ receiver _ _ _ rfl (not_not.mp hchain) hcache hreturn
        · simp only [Result.bind_eq_ok, Result.pure_eq, Except.ok.injEq, Prod.mk.injEq] at h
          obtain ⟨⟨receipt', stub₁⟩, hpoll, rfl, rfl⟩ := h
          exact goOn _ _ receiver _ _ _ _ _ rfl (not_not.mp hchain) hcache (ih hpoll)

section

variable {sizes : MemSizes} {chainId : ChainID} {curView : ViewNumber}
  {stub stub' : ProgressMessageStub S} {receipt : Receipt S}

/-- A HotStuff message that is returned is not for a future view. -/
theorem not_cached_of_returnMsg {m : S × ProgressMessage} {cached : List (S × ProgressMessage)}
    (hcached : cached = [] ∨ cached = [m] ∧ ∃ v, m.2.view = some v ∧ curView < v)
    (hreturn : returnMsg curView m.2 = true) (msg : HotStuffMessage) (hm : m.2 = .hotStuff msg) :
    cached = [] := by
  rcases hcached with hnone | ⟨-, v, hv, hlt⟩
  · exact hnone
  · rw [hm] at hreturn hv
    have hview : msg.view = curView := beq_iff_eq.mp hreturn
    exact absurd (hview.symm.trans (Option.some.inj hv)) (ne_of_lt hlt)

theorem Caches.filed {b b' : ProgressMessageBuffer S} {cached removed : List (S × ProgressMessage)}
    (hfiled : Filed b) (h : Caches b cached removed b') : Filed b' := by
  intro v m hm
  obtain ⟨left, hb, hb'⟩ := h v
  rw [hb'] at hm
  rcases List.mem_append.mp hm with hleft | hcached
  · exact hfiled v m (by rw [hb]; exact List.mem_append_left _ hleft)
  · exact beq_iff_eq.mp (List.mem_filter.mp hcached).2

theorem Caches.sorted {b b' : ProgressMessageBuffer S} {cached removed : List (S × ProgressMessage)}
    (hsorted : Sorted chainId b) (h : Caches b cached removed b')
    (hchain : ∀ m ∈ cached, m.2.chainId = chainId) : Sorted chainId b' := by
  intro v m hm
  refine ⟨h.filed hsorted.filed v m hm, ?_⟩
  obtain ⟨left, hb, hb'⟩ := h v
  rw [hb'] at hm
  rcases List.mem_append.mp hm with hleft | hcached
  · exact (hsorted v m (by rw [hb]; exact List.mem_append_left _ hleft)).2
  · exact hchain m (List.mem_filter.mp hcached).1

/-- Nothing is put into the queues of the current view and those before. -/
theorem cache_queue_eq_nil {b b' : ProgressMessageBuffer S} {m : S × ProgressMessage}
    {cached removed : List (S × ProgressMessage)} (hsorted : Sorted chainId b)
    (hchain : m.2.chainId = chainId)
    (h : cache sizes b curView m.1 m.2 = .ok (cached, removed, b')) :
    Sorted chainId b' ∧
      ∀ v ≤ curView, b.buffer.queue v = [] → b'.buffer.queue v = [] := by
  obtain ⟨hcaches, hcached⟩ := cache_caches hsorted h
  constructor
  · refine hcaches.sorted hsorted fun m' hm' => ?_
    rcases hcached with rfl | ⟨rfl, -⟩
    · cases hm'
    · rw [List.mem_singleton.mp hm']
      exact hchain
  · intro v hv hnil
    obtain ⟨left, hb, hb'⟩ := hcaches v
    rw [hnil] at hb
    rw [hb', (List.append_eq_nil_iff.mp hb.symm).1, List.nil_append]
    rcases hcached with rfl | ⟨rfl, w, hw, hlt⟩
    · rfl
    · rw [forView_singleton (m := (m.1, m.2)) hw, if_neg (ne_of_lt (lt_of_le_of_lt hv hlt))]

theorem poll_queue_eq_nil {time : Nat}
    (h : poll sizes chainId curView time stub = .ok (receipt, stub')) :
    Sorted chainId stub.msgBuffer → ∀ v ≤ curView, stub.msgBuffer.buffer.queue v = [] →
      stub'.msgBuffer.buffer.queue v = [] := by
  refine poll_induction (motive := fun stub _ stub' => Sorted chainId stub.msgBuffer →
    ∀ v ≤ curView, stub.msgBuffer.buffer.queue v = [] →
      stub'.msgBuffer.buffer.queue v = []) ?_ ?_ ?_ ?_ h
  · intro stub _ _ _ v _ hnil
    exact hnil
  · intro stub m receiver receipt stub' _ ih hsorted
    exact ih hsorted
  · intro stub m receiver cached removed msgBuffer _ hchain hcache _ hsorted v hv hnil
    exact (cache_queue_eq_nil hsorted hchain hcache).2 v hv hnil
  · intro stub m receiver cached removed msgBuffer receipt stub' _ hchain hcache ih hsorted v hv hnil
    obtain ⟨hsorted', hqueue⟩ := cache_queue_eq_nil hsorted hchain hcache
    exact ih hsorted' v hv (hqueue v hv hnil)

/-- What is read and returned can be received in the current view. -/
theorem poll_receivable {time : Nat}
    (h : poll sizes chainId curView time stub = .ok (receipt, stub')) :
    receipt.received.buffered? = none ∧ ∀ m, receipt.received.message? = some m →
      m.2.receivable chainId curView = true := by
  refine poll_induction (motive := fun _ receipt _ => receipt.received.buffered? = none ∧
    ∀ m, receipt.received.message? = some m → m.2.receivable chainId curView = true) ?_ ?_ ?_ ?_ h
  · intro stub received hnone
    refine ⟨?_, fun m hm => by rw [hnone] at hm; cases hm⟩
    cases received with
    | buffered m => cases hnone
    | fresh m => cases hnone
    | timeout | disconnected => rfl
  · intro stub m receiver receipt stub' _ ih
    exact ih
  · intro stub m receiver cached removed msgBuffer _ hchain _ hreturn
    refine ⟨rfl, fun m' hm' => ?_⟩
    cases hm'
    obtain ⟨sender, msg⟩ := m
    cases msg with
    | hotStuff msg => exact Bool.and_eq_true_iff.mpr ⟨beq_iff_eq.mpr hchain, hreturn⟩
    | pacemaker msg => exact Bool.and_eq_true_iff.mpr ⟨beq_iff_eq.mpr hchain, hreturn⟩
    | blockSyncAdvertise msg => exact beq_iff_eq.mpr hchain
  · intro stub m receiver cached removed msgBuffer receipt stub' _ _ _ ih
    exact ih

/-- Either the first message for the current view comes from the buffer, or there is none, and
messages are read from the poller. -/
theorem recv_eq (time : Nat) :
    stub.recv sizes chainId curView time =
      match stub.msgBuffer.buffer.queue curView with
      | m :: _ => .ok (⟨.buffered m, [], []⟩,
          { stub with
            msgBuffer := ((stub.msgBuffer.removeExpiredMsgs curView).getMsg curView).2 })
      | [] => poll sizes chainId curView time
          { stub with
            msgBuffer := ((stub.msgBuffer.removeExpiredMsgs curView).getMsg curView).2 } := by
  have hmsg : ((stub.msgBuffer.removeExpiredMsgs curView).getMsg curView).1 =
      (stub.msgBuffer.buffer.queue curView).head? := by
    show ((stub.msgBuffer.buffer.dropBelow curView).queue curView).head? = _
    rw [Keyed.queue_dropBelow, if_pos le_rfl]
  unfold recv
  rw [show (stub.msgBuffer.removeExpiredMsgs curView).getMsg curView =
    (((stub.msgBuffer.removeExpiredMsgs curView).getMsg curView).1,
      ((stub.msgBuffer.removeExpiredMsgs curView).getMsg curView).2) from rfl, hmsg]
  cases stub.msgBuffer.buffer.queue curView with
  | nil => rfl
  | cons m rest => rfl

theorem recv_receivable {time : Nat} (hsorted : Sorted chainId stub.msgBuffer)
    (h : stub.recv sizes chainId curView time = .ok (receipt, stub')) (m : S × ProgressMessage)
    (hm : receipt.received.message? = some m) : m.2.receivable chainId curView = true := by
  rw [recv_eq] at h
  split at h
  · rename_i m' rest hqueue
    cases h
    cases hm
    obtain ⟨hview, hchain⟩ := hsorted curView m (by rw [hqueue]; exact List.mem_cons_self)
    obtain ⟨sender, msg⟩ := m
    cases msg with
    | hotStuff msg =>
      exact Bool.and_eq_true_iff.mpr
        ⟨beq_iff_eq.mpr hchain, beq_iff_eq.mpr (Option.some.inj hview)⟩
    | pacemaker msg =>
      exact Bool.and_eq_true_iff.mpr
        ⟨beq_iff_eq.mpr hchain, decide_eq_true (Option.some.inj hview).ge⟩
    | blockSyncAdvertise msg => cases hview
  · exact (poll_receivable h).2 m hm

/-- Once there is nothing for a view in the buffer, nothing more is put there, and messages for
it come from the poller only. -/
theorem recv_queue_eq_nil {time : Nat} (hsorted : Sorted chainId stub.msgBuffer)
    (h : stub.recv sizes chainId curView time = .ok (receipt, stub')) :
    (receipt.received.buffered? = none → stub'.msgBuffer.buffer.queue curView = []) ∧
      (∀ v ≤ curView, stub.msgBuffer.buffer.queue v = [] →
        stub'.msgBuffer.buffer.queue v = []) ∧
      (stub.msgBuffer.buffer.queue curView = [] → receipt.received.buffered? = none) := by
  have hstart : ∀ v, stub.msgBuffer.buffer.queue v = [] →
      ((stub.msgBuffer.removeExpiredMsgs curView).getMsg curView).2.buffer.queue v = [] := by
    intro v hnil
    simp only [ProgressMessageBuffer.getMsg, ProgressMessageBuffer.removeExpiredMsgs,
      Keyed.queue_popFront, Keyed.queue_dropBelow]
    by_cases hv : v = curView
    · rw [if_pos hv, if_pos le_rfl, ← hv, hnil]
      rfl
    · rw [if_neg hv, hnil, ite_self]
  have hsorted' : Sorted chainId
      ((stub.msgBuffer.removeExpiredMsgs curView).getMsg curView).2 := by
    intro v m hm
    simp only [ProgressMessageBuffer.getMsg, ProgressMessageBuffer.removeExpiredMsgs,
      Keyed.queue_popFront, Keyed.queue_dropBelow] at hm
    split at hm
    · rename_i hv
      rw [if_pos le_rfl] at hm
      rw [hv]
      exact hsorted curView m (List.mem_of_mem_tail hm)
    · split at hm
      · exact hsorted v m hm
      · cases hm
  rw [recv_eq] at h
  split at h
  · rename_i m rest hqueue
    cases h
    refine ⟨(nomatch ·), fun v _ hnil => hstart v hnil, fun hnil => ?_⟩
    rw [hnil] at hqueue
    cases hqueue
  · rename_i hqueue
    refine ⟨fun _ => poll_queue_eq_nil h hsorted' curView le_rfl (hstart curView hqueue),
      fun v hv hnil => poll_queue_eq_nil h hsorted' v hv (hstart v hnil),
      fun _ => (poll_receivable h).1⟩

end

/-! ## What was delivered -/

variable [DecidableEq S]

/-- What was delivered, given what was taken off the channel and what is in the buffer. -/
structure Delivers (chainId : ChainID) (curView : ViewNumber) (taken : List (S × ProgressMessage))
    (b : ProgressMessageBuffer S) (d : Deliveries S) : Prop where
  sorted : Sorted chainId b
  fresh_sublist : d.fresh.Sublist taken
  buffered_view : ∀ m ∈ d.buffered, m.2.view.isSome = true
  in_order : ∀ v, (forView v d.buffered ++ b.buffer.queue v).Sublist (forView v taken)
  /-- A HotStuff message that was returned when it was read has not been in the buffer. -/
  hotStuff_once : ∀ sender msg v, msg.view = v →
    d.fresh.count (sender, .hotStuff msg) + d.buffered.count (sender, .hotStuff msg) +
      (b.buffer.queue v).count (sender, .hotStuff msg) ≤ taken.count (sender, .hotStuff msg)
  /-- A message in the buffer stays there until it is returned, removed or expired. -/
  kept : ∀ v, curView ≤ v → (forView v d.cached).Perm
    (forView v d.buffered ++ forView v d.removed ++ b.buffer.queue v)

namespace Delivers

variable {chainId : ChainID} {curView : ViewNumber} {taken : List (S × ProgressMessage)}
  {b b' : ProgressMessageBuffer S} {d : Deliveries S} {m : S × ProgressMessage}

theorem new (stream : List (S × ProgressMessage)) (hangsUp : Bool) (capacity : BufferSize) :
    Delivers chainId curView [] (ProgressMessageStub.new stream hangsUp capacity).msgBuffer
      .none where
  sorted _ _ hm := nomatch hm
  fresh_sublist := List.Sublist.refl _
  buffered_view _ hm := nomatch hm
  in_order _ := List.Sublist.refl _
  hotStuff_once _ _ _ _ := Nat.le_refl _
  kept _ _ := List.Perm.refl _

theorem mono {next : ViewNumber} (h : Delivers chainId curView taken b d) (hle : curView ≤ next) :
    Delivers chainId next taken b d :=
  { h with kept := fun v hv => h.kept v (hle.trans hv) }

theorem expire {next : ViewNumber} (h : Delivers chainId curView taken b d)
    (hle : curView ≤ next) : Delivers chainId next taken (b.removeExpiredMsgs next) d where
  sorted v m hm := by
    simp only [ProgressMessageBuffer.removeExpiredMsgs, Keyed.queue_dropBelow] at hm
    split at hm
    · exact h.sorted v m hm
    · cases hm
  fresh_sublist := h.fresh_sublist
  buffered_view := h.buffered_view
  in_order v := by
    simp only [ProgressMessageBuffer.removeExpiredMsgs, Keyed.queue_dropBelow]
    split
    · exact h.in_order v
    · rw [List.append_nil]
      exact (List.sublist_append_left _ _).trans (h.in_order v)
  hotStuff_once sender msg v hv := by
    simp only [ProgressMessageBuffer.removeExpiredMsgs, Keyed.queue_dropBelow]
    split
    · exact h.hotStuff_once sender msg v hv
    · rw [List.count_nil]
      exact (Nat.le_add_right _ _).trans (h.hotStuff_once sender msg v hv)
  kept v hv := by
    simp only [ProgressMessageBuffer.removeExpiredMsgs, Keyed.queue_dropBelow, if_pos hv]
    exact h.kept v (hle.trans hv)

/-- The first message for the current view is taken off the buffer and returned. -/
theorem pop {rest : List (S × ProgressMessage)} (h : Delivers chainId curView taken b d)
    (hqueue : b.buffer.queue curView = m :: rest) :
    Delivers chainId curView taken (b.getMsg curView).2
      { d with buffered := d.buffered ++ [m] } := by
  have hview : m.2.view = some curView :=
    (h.sorted curView m (by rw [hqueue]; exact List.mem_cons_self)).1
  have hpop : ∀ v, (b.getMsg curView).2.buffer.queue v =
      if v = curView then rest else b.buffer.queue v := by
    intro v
    simp only [ProgressMessageBuffer.getMsg, Keyed.queue_popFront, hqueue, List.tail_cons]
  have hfirst : ∀ v, forView v (d.buffered ++ [m]) ++ (b.getMsg curView).2.buffer.queue v =
      forView v d.buffered ++ b.buffer.queue v := by
    intro v
    rw [forView_append, forView_singleton hview, hpop, List.append_assoc]
    by_cases hv : v = curView
    · rw [if_pos hv, if_pos hv, hv, hqueue, List.singleton_append]
    · rw [if_neg hv, if_neg hv, List.nil_append]
  exact {
    sorted := fun v m' hm' => by
      rw [hpop] at hm'
      split at hm'
      · rename_i heq
        exact h.sorted v m' (by rw [heq, hqueue]; exact List.mem_cons_of_mem _ hm')
      · exact h.sorted v m' hm'
    fresh_sublist := h.fresh_sublist
    buffered_view := fun m' hm' => by
      rcases List.mem_append.mp hm' with hold | hnew
      · exact h.buffered_view m' hold
      · rw [List.mem_singleton.mp hnew, hview]
        rfl
    in_order := fun v => by
      rw [hfirst]
      exact h.in_order v
    hotStuff_once := fun sender msg v hv => by
      have honce := h.hotStuff_once sender msg v hv
      dsimp only
      rw [hpop, List.count_append]
      by_cases heq : v = curView
      · rw [heq, hqueue, List.count_cons] at honce
        rw [if_pos heq, List.count_singleton]
        omega
      · have hne : (m == (sender, ProgressMessage.hotStuff msg)) = false := by
          rw [beq_eq_false_iff_ne]
          rintro rfl
          exact heq (hv.symm.trans (Option.some.inj hview))
        rw [if_neg heq, List.count_singleton, hne]
        exact honce
    kept := fun v hv => by
      refine (h.kept v hv).trans ?_
      have hswap : ∀ queue, (forView v d.buffered ++ forView v d.removed ++ queue).Perm
          (forView v d.removed ++ (forView v d.buffered ++ queue)) := by
        intro queue
        rw [← List.append_assoc]
        exact List.perm_append_comm.append_right queue
      refine (hswap _).trans ?_
      rw [← hfirst, ← List.append_assoc]
      exact List.perm_append_comm.append_right _ }

/-- A HotStuff message is put into the buffer or returned, not both. -/
theorem count_hotStuff_le {cached fresh : List (S × ProgressMessage)} {sender : S}
    {msg : HotStuffMessage} (hcached : cached = [] ∨ cached = [m]) (hfresh : fresh = [] ∨ fresh = [m])
    (hone : m.2 = .hotStuff msg → cached = [] ∨ fresh = []) :
    fresh.count (sender, .hotStuff msg) + cached.count (sender, .hotStuff msg) ≤
      [m].count (sender, .hotStuff msg) := by
  by_cases hm : m = (sender, .hotStuff msg)
  · rcases hone (by rw [hm]) with rfl | rfl
    · rcases hfresh with rfl | rfl <;> simp
    · rcases hcached with rfl | rfl <;> simp
  · have hnone : ∀ l : List (S × ProgressMessage), l = [] ∨ l = [m] →
        l.count (sender, .hotStuff msg) = 0 := by
      rintro l (rfl | rfl)
      · exact List.count_nil
      · rw [List.count_singleton, beq_eq_false_iff_ne.mpr hm]
        rfl
    rw [hnone fresh hfresh, hnone cached hcached]
    exact Nat.zero_le _

/-- What is removed from the back of the buffer is counted with what was removed before. -/
theorem perm_removed {α : Type} (buffered before left removed : List α) :
    (buffered ++ before ++ (left ++ removed.reverse)).Perm
      (buffered ++ (before ++ removed) ++ left) := by
  rw [List.append_assoc, List.append_assoc, List.append_assoc]
  refine List.Perm.append_left _ (List.Perm.append_left _ ?_)
  exact List.perm_append_comm.trans ((List.reverse_perm _).append_right left)

/-- A message is taken off the channel and may be put into the buffer and returned, of which
only one happens to a HotStuff message. -/
theorem step {cached removed fresh : List (S × ProgressMessage)}
    (h : Delivers chainId curView taken b d) (hchain : m.2.chainId = chainId)
    (hcaches : Caches b cached removed b')
    (hcached : cached = [] ∨ cached = [m] ∧ ∃ v, m.2.view = some v ∧ curView < v)
    (hfresh : fresh = [] ∨ fresh = [m])
    (hone : ∀ msg, m.2 = .hotStuff msg → cached = [] ∨ fresh = []) :
    Delivers chainId curView (taken ++ [m]) b'
      { d with
        fresh := d.fresh ++ fresh
        cached := d.cached ++ cached
        removed := d.removed ++ removed } := by
  have hcachedFor : ∀ v, (forView v cached).Sublist (forView v [m]) := by
    intro v
    rcases hcached with rfl | ⟨rfl, -⟩
    · exact List.nil_sublist _
    · exact List.Sublist.refl _
  exact {
    sorted := hcaches.sorted h.sorted fun m' hm' => by
      rcases hcached with rfl | ⟨rfl, -⟩
      · cases hm'
      · rw [List.mem_singleton.mp hm']
        exact hchain
    fresh_sublist := by
      refine h.fresh_sublist.append ?_
      rcases hfresh with rfl | rfl
      · exact List.nil_sublist _
      · exact List.Sublist.refl _
    buffered_view := h.buffered_view
    in_order := fun v => by
      obtain ⟨left, hb, hb'⟩ := hcaches v
      have hold : (forView v d.buffered ++ left).Sublist (forView v taken) := by
        refine (List.Sublist.append_left ?_ _).trans (h.in_order v)
        rw [hb]
        exact List.sublist_append_left _ _
      rw [hb', ← List.append_assoc, forView_append]
      exact hold.append (hcachedFor v)
    hotStuff_once := fun sender msg v hv => by
      obtain ⟨left, hb, hb'⟩ := hcaches v
      have honce := h.hotStuff_once sender msg v hv
      rw [hb, List.count_append] at honce
      dsimp only
      rw [hb', List.count_append, List.count_append, List.count_append]
      have hcachedLe : (forView v cached).count (sender, .hotStuff msg) ≤
          cached.count (sender, .hotStuff msg) := List.Sublist.count_le _ List.filter_sublist
      have hnew : fresh.count (sender, .hotStuff msg) + cached.count (sender, .hotStuff msg) ≤
          [m].count (sender, .hotStuff msg) :=
        count_hotStuff_le (hcached.imp_right And.left) hfresh (hone msg)
      omega
    kept := fun v hv => by
      obtain ⟨left, hb, hb'⟩ := hcaches v
      have hkept := h.kept v hv
      rw [hb] at hkept
      dsimp only
      rw [hb', forView_append, forView_append]
      rw [← List.append_assoc]
      exact (hkept.trans (perm_removed _ _ _ _)).append_right _ }

theorem take (h : Delivers chainId curView taken b d) (m : S × ProgressMessage) :
    Delivers chainId curView (taken ++ [m]) b d where
  sorted := h.sorted
  fresh_sublist := h.fresh_sublist.trans (List.sublist_append_left _ _)
  buffered_view := h.buffered_view
  in_order v := (h.in_order v).trans ((List.sublist_append_left _ _).filter _)
  hotStuff_once sender msg v hv := by
    rw [List.count_append]
    exact (h.hotStuff_once sender msg v hv).trans (Nat.le_add_right _ _)
  kept := h.kept

theorem congr (h : Delivers chainId curView taken b d)
    (heq : ∀ v, b'.buffer.queue v = b.buffer.queue v) : Delivers chainId curView taken b' d where
  sorted v m hm := h.sorted v m (heq v ▸ hm)
  fresh_sublist := h.fresh_sublist
  buffered_view := h.buffered_view
  in_order v := heq v ▸ h.in_order v
  hotStuff_once sender msg v hv := heq v ▸ h.hotStuff_once sender msg v hv
  kept v hv := heq v ▸ h.kept v hv

end Delivers

/-! ## One call -/

section

variable {sizes : MemSizes} {chainId : ChainID} {curView : ViewNumber}
  {stub stub' : ProgressMessageStub S} {receipt : Receipt S} {d : Deliveries S}

theorem poll_delivers {time : Nat} (h : poll sizes chainId curView time stub = .ok (receipt, stub')) :
    ∀ {taken : List (S × ProgressMessage)} {d : Deliveries S},
      Delivers chainId curView taken stub.msgBuffer d →
      ∃ taken', taken' ++ stub'.receiver = taken ++ stub.receiver ∧
        Delivers chainId curView taken' stub'.msgBuffer (d.add receipt) := by
  refine poll_induction (motive := fun stub receipt stub' => ∀ {taken} {d},
    Delivers chainId curView taken stub.msgBuffer d →
      ∃ taken', taken' ++ stub'.receiver = taken ++ stub.receiver ∧
        Delivers chainId curView taken' stub'.msgBuffer (d.add receipt)) ?_ ?_ ?_ ?_ h
  · intro stub received hnone taken d hd
    refine ⟨taken, rfl, ?_⟩
    cases received with
    | buffered m => cases hnone
    | fresh m => cases hnone
    | timeout | disconnected => simpa [Deliveries.add, Received.buffered?, Received.fresh?] using hd
  · intro stub m receiver receipt stub' hreceiver ih taken d hd
    obtain ⟨taken', htaken, hd'⟩ := ih (hd.take m)
    exact ⟨taken', by rw [htaken, hreceiver, List.append_assoc, List.singleton_append], hd'⟩
  · intro stub m receiver cached removed msgBuffer hreceiver hchain hcache hreturn taken d hd
    obtain ⟨hcaches, hcached⟩ := cache_caches hd.sorted hcache
    refine ⟨taken ++ [m], by rw [hreceiver, List.append_assoc, List.singleton_append], ?_⟩
    have hstep := hd.step hchain hcaches hcached (.inr rfl)
      (fun msg hm => .inl (not_cached_of_returnMsg hcached hreturn msg hm))
    simpa [Deliveries.add, Received.buffered?, Received.fresh?] using hstep
  · intro stub m receiver cached removed msgBuffer receipt stub' hreceiver hchain hcache ih taken d hd
    obtain ⟨hcaches, hcached⟩ := cache_caches hd.sorted hcache
    have hstep := hd.step hchain hcaches hcached (.inl rfl) (fun _ _ => .inr rfl)
    rw [List.append_nil] at hstep
    obtain ⟨taken', htaken, hd'⟩ := ih hstep
    refine ⟨taken', by rw [htaken, hreceiver, List.append_assoc, List.singleton_append], ?_⟩
    rw [Deliveries.add_before]
    exact hd'

theorem recv_delivers {next : ViewNumber} {time : Nat} {taken : List (S × ProgressMessage)}
    (hd : Delivers chainId curView taken stub.msgBuffer d) (hle : curView ≤ next)
    (h : stub.recv sizes chainId next time = .ok (receipt, stub')) :
    ∃ taken', taken' ++ stub'.receiver = taken ++ stub.receiver ∧
      Delivers chainId next taken' stub'.msgBuffer (d.add receipt) := by
  have hqueue : (stub.msgBuffer.removeExpiredMsgs next).buffer.queue next =
      stub.msgBuffer.buffer.queue next := by
    simp only [ProgressMessageBuffer.removeExpiredMsgs, Keyed.queue_dropBelow, le_rfl, if_true]
  have hexpired := hd.expire hle
  rw [recv_eq] at h
  split at h
  · rename_i m rest hfirst
    cases h
    refine ⟨taken, rfl, ?_⟩
    rw [Deliveries.add_buffered]
    exact hexpired.pop (hqueue.trans hfirst)
  · rename_i hnil
    refine poll_delivers h (hexpired.congr fun v => ?_)
    simp only [ProgressMessageBuffer.getMsg, Keyed.queue_popFront]
    split
    · rename_i hv
      rw [hv, hqueue, hnil]
      rfl
    · rfl

end

/-! ## Any number of calls -/

section

variable {sizes : MemSizes} {chainId : ChainID} {curView : ViewNumber}
  {stub stub' : ProgressMessageStub S} {calls : List (ViewNumber × Nat)}
  {receipts : List (ViewNumber × Receipt S)}

/-- What the calls return can be received in their views, and what they deliver is accounted
for. -/
theorem recvAll_delivers {last : ViewNumber} {d : Deliveries S}
    {taken : List (S × ProgressMessage)} (hd : Delivers chainId curView taken stub.msgBuffer d)
    (hcur : ∀ call ∈ calls, curView ≤ call.1) (hviews : calls.Pairwise fun a b => a.1 ≤ b.1)
    (hlast : ∀ call ∈ calls, call.1 ≤ last) (hle : curView ≤ last)
    (h : stub.recvAll sizes chainId calls = .ok (receipts, stub')) :
    (∃ taken', taken' ++ stub'.receiver = taken ++ stub.receiver ∧
      Delivers chainId last taken' stub'.msgBuffer (d.addAll receipts)) ∧
    ∀ r ∈ receipts, ∀ m, r.2.received.message? = some m → m.2.receivable chainId r.1 = true := by
  induction calls generalizing curView stub d taken receipts with
  | nil =>
    cases h
    exact ⟨⟨taken, rfl, hd.mono hle⟩, fun _ hr => nomatch hr⟩
  | cons call calls ih =>
    obtain ⟨receipt, stub₁, rest, hrecv, hrest, rfl⟩ := recvAll_cons_eq_ok.mp h
    obtain ⟨hfirst, hcalls⟩ := List.pairwise_cons.mp hviews
    obtain ⟨hcallCur, -⟩ := List.forall_mem_cons.mp hcur
    obtain ⟨hcallLast, hcallsLast⟩ := List.forall_mem_cons.mp hlast
    obtain ⟨taken₁, htaken₁, hd₁⟩ := recv_delivers hd hcallCur hrecv
    obtain ⟨⟨taken', htaken', hd'⟩, hreceivable⟩ := ih hd₁ hfirst hcalls hcallsLast hcallLast hrest
    refine ⟨⟨taken', htaken'.trans htaken₁, hd'⟩, fun r hr m hm => ?_⟩
    rcases List.mem_cons.mp hr with rfl | hmem
    · exact recv_receivable hd.sorted hrecv m hm
    · exact hreceivable r hmem m hm

/-- Once there is nothing for a view in the buffer, none of the calls gets a message for it from
there. -/
theorem recvAll_not_buffered {v : ViewNumber} {d : Deliveries S}
    {taken : List (S × ProgressMessage)} (hd : Delivers chainId curView taken stub.msgBuffer d)
    (hcur : ∀ call ∈ calls, curView ≤ call.1) (hviews : calls.Pairwise fun a b => a.1 ≤ b.1)
    (hv : ∀ call ∈ calls, v ≤ call.1) (hnil : stub.msgBuffer.buffer.queue v = [])
    (h : stub.recvAll sizes chainId calls = .ok (receipts, stub')) :
    ∀ r ∈ receipts, r.1 = v → r.2.received.buffered? = none := by
  induction calls generalizing curView stub d taken receipts with
  | nil =>
    cases h
    exact fun _ hr => nomatch hr
  | cons call calls ih =>
    obtain ⟨receipt, stub₁, rest, hrecv, hrest, rfl⟩ := recvAll_cons_eq_ok.mp h
    obtain ⟨hfirst, hcalls⟩ := List.pairwise_cons.mp hviews
    obtain ⟨hvCall, hvCalls⟩ := List.forall_mem_cons.mp hv
    obtain ⟨taken₁, -, hd₁⟩ := recv_delivers hd (hcur call List.mem_cons_self) hrecv
    obtain ⟨-, hqueue, hreceived⟩ := recv_queue_eq_nil hd.sorted hrecv
    intro r hr heq
    rcases List.mem_cons.mp hr with rfl | hmem
    · exact hreceived (heq ▸ hnil)
    · exact ih hd₁ hfirst hcalls hvCalls (hqueue v hvCall hnil) hrest r hmem heq

/-- In each view the messages from the buffer come first. -/
theorem recvAll_buffered_first {d : Deliveries S} {taken : List (S × ProgressMessage)}
    (hd : Delivers chainId curView taken stub.msgBuffer d)
    (hcur : ∀ call ∈ calls, curView ≤ call.1) (hviews : calls.Pairwise fun a b => a.1 ≤ b.1)
    (h : stub.recvAll sizes chainId calls = .ok (receipts, stub')) :
    receipts.Pairwise fun r r' => r'.1 = r.1 → r'.2.received.buffered?.isSome = true →
      r.2.received.buffered?.isSome = true := by
  induction calls generalizing curView stub d taken receipts with
  | nil =>
    cases h
    exact .nil
  | cons call calls ih =>
    obtain ⟨receipt, stub₁, rest, hrecv, hrest, rfl⟩ := recvAll_cons_eq_ok.mp h
    obtain ⟨hfirst, hcalls⟩ := List.pairwise_cons.mp hviews
    obtain ⟨taken₁, -, hd₁⟩ := recv_delivers hd (hcur call List.mem_cons_self) hrecv
    refine List.pairwise_cons.mpr ⟨fun r' hr' heq hbuffered => ?_, ih hd₁ hfirst hcalls hrest⟩
    by_contra hnot
    have hnone : receipt.received.buffered? = none :=
      Option.not_isSome_iff_eq_none.mp hnot
    have hnil := (recv_queue_eq_nil hd.sorted hrecv).1 hnone
    have hlater := recvAll_not_buffered hd₁ hfirst hcalls hfirst hnil hrest r' hr' heq
    rw [hlater] at hbuffered
    cases hbuffered

omit [DecidableEq S] in
/-- The next calls in a view return all that waits for it, in order. -/
theorem recvAll_queue (v : ViewNumber) {queue : List (S × ProgressMessage)} {times : List Nat}
    (hqueue : stub.msgBuffer.buffer.queue v = queue) (htimes : times.length = queue.length) :
    ∃ stub', stub.recvAll sizes chainId (times.map fun time => (v, time)) =
      .ok (queue.map fun m => (v, ⟨.buffered m, [], []⟩), stub') := by
  induction queue generalizing stub times with
  | nil =>
    rw [List.eq_nil_of_length_eq_zero htimes]
    exact ⟨stub, rfl⟩
  | cons m rest ih =>
    cases times with
    | nil => cases htimes
    | cons time times =>
      have hpopped : ((stub.msgBuffer.removeExpiredMsgs v).getMsg v).2.buffer.queue v = rest := by
        simp only [ProgressMessageBuffer.getMsg, ProgressMessageBuffer.removeExpiredMsgs,
          Keyed.queue_popFront, Keyed.queue_dropBelow, if_true, le_rfl, hqueue, List.tail_cons]
      let popped : ProgressMessageStub S := { stub with
        msgBuffer := ((stub.msgBuffer.removeExpiredMsgs v).getMsg v).2 }
      obtain ⟨stub', hrest⟩ := @ih popped times hpopped (Nat.succ.inj htimes)
      refine ⟨stub', recvAll_cons_eq_ok.mpr ⟨_, _, _, ?_, hrest, rfl⟩⟩
      rw [recv_eq, hqueue]

end

/-! ## View-aware delivery -/

/-- What all calls together have returned. -/
def returned (receipts : List (ViewNumber × Receipt S)) : List (S × ProgressMessage) :=
  receipts.filterMap fun r => r.2.received.message?

omit [DecidableEq S] in
theorem returned_cons (r : ViewNumber × Receipt S) (receipts : List (ViewNumber × Receipt S)) :
    returned (r :: receipts) = r.2.received.message?.toList ++ returned receipts := by
  unfold returned
  rw [List.filterMap_cons]
  cases r.2.received.message? <;> rfl

theorem count_returned (receipts : List (ViewNumber × Receipt S)) (m : S × ProgressMessage) :
    ∀ d : Deliveries S, (d.addAll receipts).fresh.count m + (d.addAll receipts).buffered.count m =
      d.fresh.count m + d.buffered.count m + (returned receipts).count m := by
  induction receipts with
  | nil => intro d; rfl
  | cons r receipts ih =>
    intro d
    rw [Deliveries.addAll_cons, ih, returned_cons]
    obtain ⟨v, received, cached, removed⟩ := r
    cases received with
    | buffered m' =>
      simp only [Deliveries.add, Received.buffered?, Received.fresh?, Received.message?,
        Option.toList_some, Option.toList_none, List.append_nil, List.count_append,
        List.count_cons, List.count_nil]
      omega
    | fresh m' =>
      simp only [Deliveries.add, Received.buffered?, Received.fresh?, Received.message?,
        Option.toList_some, Option.toList_none, List.append_nil, List.count_append,
        List.count_cons, List.count_nil]
      omega
    | timeout | disconnected =>
      simp only [Deliveries.add, Received.buffered?, Received.fresh?, Received.message?,
        Option.toList_none, List.append_nil, List.nil_append]

/-- What `recv` promises for a number of calls that end in `stub` and return `receipts`, given
all messages that arrive. -/
structure ViewAware (sizes : MemSizes) (chainId : ChainID) (stream : List (S × ProgressMessage))
    (receipts : List (ViewNumber × Receipt S)) (stub : ProgressMessageStub S) : Prop where
  receivable : ∀ r ∈ receipts, ∀ m, r.2.received.message? = some m →
    m.2.receivable chainId r.1 = true
  hotStuff_once : ∀ sender msg, (returned receipts).count (sender, .hotStuff msg) ≤
    stream.count (sender, .hotStuff msg)
  pacemaker_twice : ∀ sender msg, (returned receipts).count (sender, .pacemaker msg) ≤
    2 * stream.count (sender, .pacemaker msg)
  in_order : ∀ v, (forView v (Deliveries.none.addAll receipts).buffered).Sublist (forView v stream)
  buffered_first : receipts.Pairwise fun r r' => r'.1 = r.1 →
    r'.2.received.buffered?.isSome = true → r.2.received.buffered?.isSome = true
  /-- As long as its view is not over, a message that was put into the buffer has been returned
  from there, or removed to make space, or is still there. -/
  not_lost : ∀ v, (∀ r ∈ receipts, r.1 ≤ v) →
    (forView v (Deliveries.none.addAll receipts).cached).Perm
      (forView v (Deliveries.none.addAll receipts).buffered ++
        forView v (Deliveries.none.addAll receipts).removed ++ stub.msgBuffer.buffer.queue v)
  /-- And the next calls in its view return it. -/
  not_skipped : ∀ v, ∀ times : List Nat, times.length = (stub.msgBuffer.buffer.queue v).length →
    ∃ stub', stub.recvAll sizes chainId (times.map fun time => (v, time)) =
      .ok ((stub.msgBuffer.buffer.queue v).map fun m => (v, ⟨.buffered m, [], []⟩), stub')

/-- From a new receiving end, calls whose current view never goes back are view-aware. -/
theorem recvAll_viewAware {sizes : MemSizes} {chainId : ChainID}
    {stream : List (S × ProgressMessage)} {hangsUp : Bool} {capacity : BufferSize}
    {calls : List (ViewNumber × Nat)} {receipts : List (ViewNumber × Receipt S)}
    {stub : ProgressMessageStub S} (hviews : calls.Pairwise fun a b => a.1 ≤ b.1)
    (h : (ProgressMessageStub.new stream hangsUp capacity).recvAll sizes chainId calls =
      .ok (receipts, stub)) :
    ViewAware sizes chainId stream receipts stub := by
  have hnew : Delivers chainId 0 [] (ProgressMessageStub.new stream hangsUp capacity).msgBuffer
      .none := Delivers.new stream hangsUp capacity
  have hcur : ∀ call ∈ calls, (0 : ViewNumber) ≤ call.1 := fun call _ => Fin.zero_le call.1
  have hall := fun last : ViewNumber => fun hlast : ∀ call ∈ calls, call.1 ≤ last =>
    recvAll_delivers hnew hcur hviews hlast (Fin.zero_le last) h
  obtain ⟨⟨taken, htaken, hd⟩, hreceivable⟩ :=
    hall (Fin.last (2 ^ 64 - 1)) fun call _ => Fin.le_last call.1
  have hcount : ∀ m, taken.count m ≤ stream.count m := by
    intro m
    rw [show stream = taken ++ stub.receiver from htaken.symm, List.count_append]
    exact Nat.le_add_right _ _
  have hreturned : ∀ m, (Deliveries.none.addAll receipts).fresh.count m +
      (Deliveries.none.addAll receipts).buffered.count m = (returned receipts).count m := by
    intro m
    rw [count_returned, Deliveries.none, List.count_nil, Nat.zero_add]
  exact {
    receivable := hreceivable
    hotStuff_once := fun sender msg => by
      have honce := hd.hotStuff_once sender msg msg.view rfl
      rw [← hreturned]
      exact ((Nat.le_add_right _ _).trans honce).trans (hcount _)
    pacemaker_twice := fun sender msg => by
      have hfresh := hd.fresh_sublist.count_le (sender, .pacemaker msg)
      have hbuffered := ((List.sublist_append_left _ _).trans (hd.in_order msg.view)).count_le
        (sender, .pacemaker msg)
      have hview : ∀ l : List (S × ProgressMessage),
          (forView msg.view l).count (sender, .pacemaker msg) =
            l.count (sender, .pacemaker msg) := fun l =>
        List.count_filter (beq_iff_eq.mpr rfl)
      rw [hview, hview] at hbuffered
      have htakenLe := hcount (sender, .pacemaker msg)
      rw [← hreturned]
      omega
    in_order := fun v => by
      rw [show stream = taken ++ stub.receiver from htaken.symm, forView_append]
      exact ((List.sublist_append_left _ _).trans (hd.in_order v)).trans
        (List.sublist_append_left _ _)
    buffered_first := recvAll_buffered_first hnew hcur hviews h
    not_lost := fun v hv => by
      have hcalls := recvAll_views h
      obtain ⟨⟨taken', -, hd'⟩, -⟩ := hall v fun call hcall => by
        obtain ⟨r, hr, heq⟩ := List.mem_map.mp
          (hcalls ▸ List.mem_map_of_mem (f := Prod.fst) hcall)
        exact heq ▸ hv r hr
      exact hd'.kept v le_rfl
    not_skipped := fun v times htimes => recvAll_queue v rfl htimes }

namespace Sample

def sizes : MemSizes := ⟨32, 100, 100, 100, 100, 100, 100, 100, 100, by decide⟩

/-- Two votes arrive in view 4: one is for view 5, and the other one for view 4. -/
def arrivals : List (VerifyingKey × ProgressMessage) :=
  [(1, .hotStuff (.phaseVote ⟨7, 5, 0, .generic, (0, 0)⟩)),
    (2, .hotStuff (.phaseVote ⟨7, 4, 0, .generic, (0, 0)⟩))]

end Sample

theorem recvAll_viewAware_sample : ∃ receipts stub,
    (ProgressMessageStub.new Sample.arrivals false 1000).recvAll Sample.sizes 7 [(4, 2), (5, 2)] =
      .ok (receipts, stub) ∧ ViewAware Sample.sizes 7 Sample.arrivals receipts stub := by
  have hviews : ([(4, 2), (5, 2)] : List (ViewNumber × Nat)).Pairwise fun a b => a.1 ≤ b.1 := by
    decide
  obtain ⟨⟨receipts, stub⟩, h⟩ : ∃ p, (ProgressMessageStub.new Sample.arrivals false
      1000).recvAll Sample.sizes 7 [(4, 2), (5, 2)] = .ok p := ⟨_, rfl⟩
  exact ⟨receipts, stub, h, recvAll_viewAware hviews h⟩

end ProgressMessageStub
end HotStuffRs
