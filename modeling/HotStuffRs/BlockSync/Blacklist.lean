import HotStuffRs.BlockSync.Client
import Mathlib.Data.List.TakeWhile

/-
The blacklist of the block sync client.

Servers are blacklisted, register by their advertisements, and ticks remove blacklistings.  What
the handlers of the client do to its state is a sequence of such events.
-/

namespace HotStuffRs

open Kv Kv.Process

namespace BlockSyncClientState

/-- What happens to the state of a block sync client. -/
inductive Event
  | blacklist (server : VerifyingKey)
  /-- An advertisement that is correct, and from an address that may be a sync server. -/
  | advertiseBlock (origin : VerifyingKey) (highestCommittedBlockHeight : BlockHeight)
  | progress (highestPcView : ViewNumber)
  | tick

namespace Event

def blacklisted? : Event → Option VerifyingKey
  | blacklist server => some server
  | _ => none

end Event

variable {expiryTime : Duration}

/-- A blacklisting is for a term that ends at an instant that can be represented. -/
def perform (expiryTime : Duration) (state : BlockSyncClientState) :
    Instant × Event → BlockSyncClientState
  | (now, .blacklist server) => state.blacklistUntil server (now + expiryTime)
  | (_, .advertiseBlock origin height) =>
    if state.blacklistContainsServerAddress origin then state
    else state.registerOrUpdateSyncServer origin height
  | (now, .progress highestPcView) =>
    { state with lastProgressOrSyncTime := now, highestPcView }
  | (now, .tick) => state.removeExpiredBlacklistedServers now

def performAll (expiryTime : Duration) (state : BlockSyncClientState)
    (events : List (Instant × Event)) : BlockSyncClientState :=
  events.foldl (perform expiryTime) state

theorem performAll_concat (state : BlockSyncClientState) (events : List (Instant × Event))
    (event : Instant × Event) :
    state.performAll expiryTime (events ++ [event]) =
      (state.performAll expiryTime events).perform expiryTime event :=
  List.foldl_concat ..

/-- The blacklistings among some events, each with the time when its term is over. -/
def blacklistings (expiryTime : Duration) (events : List (Instant × Event)) :
    List (VerifyingKey × Instant) :=
  events.filterMap fun (now, event) => event.blacklisted?.map fun server => (server, now + expiryTime)

theorem blacklistings_concat (events : List (Instant × Event)) (now : Instant) (event : Event) :
    blacklistings expiryTime (events ++ [(now, event)]) =
      blacklistings expiryTime events ++
        (event.blacklisted?.map fun server => (server, now + expiryTime)).toList := by
  unfold blacklistings
  rw [List.filterMap_append]
  cases event <;> rfl

/-- The state ignores a server: it is not chosen as a sync server, and its advertisements
change nothing. -/
structure Ignores (state : BlockSyncClientState) (server : VerifyingKey) : Prop where
  not_chosen : ∀ minHeight, server ∉ state.syncServers minHeight
  not_registered : ∀ expiryTime now height,
    state.perform expiryTime (now, .advertiseBlock server height) = state
  advertisePc_ignored : ∀ cr app fuel now msg choice responses,
    ∀ w : World BlockSyncClient Action Var.Val, w.mem.state = state →
      wp (BlockSyncClient.onReceiveAdvertisePc cr app fuel now msg server choice responses)
        (fun _ w' => w' = w) (fun w' => w' = w) w

/-- What blacklisting promises after some events. -/
structure OnTerm (expiryTime : Duration) (state : BlockSyncClientState)
    (before : List (Instant × Event)) (now : Instant) (event : Event) : Prop where
  /-- A server is ignored until its term is over. -/
  ignores : ∀ server expiry,
    (server, expiry) ∈ blacklistings expiryTime (before ++ [(now, event)]) → now < expiry →
      (state.performAll expiryTime (before ++ [(now, event)])).Ignores server
  /-- After a tick, a server whose terms are all over is not on the blacklist. -/
  released : event = .tick → ∀ server,
    (∀ expiry, (server, expiry) ∈ blacklistings expiryTime before → expiry < now) →
      (state.performAll expiryTime
        (before ++ [(now, event)])).blacklistContainsServerAddress server = false

/-- A tick finds the blacklist empty, or all of it expiring just now, or its first entry expired
and for each server with an expired entry a later one that is not expired. -/
def TickOnTerm (state : BlockSyncClientState) (now : Instant) : Prop :=
  (∀ entry ∈ state.blacklist, entry.2 = now) ∨
    (∃ first ∈ state.blacklist.head?, first.2 < now) ∧
      ∀ entry ∈ state.blacklist, entry.2 < now →
        ∃ later ∈ state.blacklist, later.1 = entry.1 ∧ now ≤ later.2

/-! ## Events -/

theorem blacklistSyncServer_eq_ok {state state' : BlockSyncClientState} {server : VerifyingKey}
    {now : Instant} :
    state.blacklistSyncServer server expiryTime now = .ok state' ↔
      now + expiryTime < Instant.limit ∧
        state.perform expiryTime (now, .blacklist server) = state' := by
  simp only [blacklistSyncServer, Result.bind_eq_ok, Instant.add_eq_ok, Result.pure_eq,
    Except.ok.injEq]
  constructor
  · rintro ⟨expiry, ⟨hlt, rfl⟩, rfl⟩
    exact ⟨hlt, rfl⟩
  · rintro ⟨hlt, rfl⟩
    exact ⟨_, ⟨hlt, rfl⟩, rfl⟩

theorem blacklistContains_iff {state : BlockSyncClientState} {server : VerifyingKey} :
    state.blacklistContainsServerAddress server = true ↔ ∃ entry ∈ state.blacklist, entry.1 = server := by
  simp [blacklistContainsServerAddress]

theorem mem_syncServers {state : BlockSyncClientState} {minHeight : Option BlockHeight}
    {server : VerifyingKey} (h : server ∈ state.syncServers minHeight) :
    server ∈ state.availableSyncServers := by
  obtain ⟨⟨server', height⟩, hmem, rfl⟩ := List.mem_map.mp h
  have htoList := (List.mem_filter.mp hmem).1
  rw [Std.ExtTreeMap.mem_toList_iff_getElem?_eq_some] at htoList
  exact Std.ExtTreeMap.mem_iff_isSome_getElem?.mpr (by rw [htoList]; rfl)

theorem ignores_of_blacklisted {state : BlockSyncClientState} {server : VerifyingKey}
    (hblacklisted : state.blacklistContainsServerAddress server = true)
    (havailable : server ∉ state.availableSyncServers) : state.Ignores server where
  not_chosen minHeight hmem := havailable (mem_syncServers hmem)
  not_registered expiryTime now height := if_pos hblacklisted
  advertisePc_ignored cr app fuel now msg choice responses w hw := by
    unfold BlockSyncClient.onReceiveAdvertisePc
    simp only [wp_bind, wp_mem, wp_store, wp_lift]
    refine ⟨fun entered _ => ?_, fun _ _ => trivial⟩
    rw [if_pos (.inl (hw ▸ hblacklisted))]
    exact rfl

/-- A server that is not on the blacklist could register. -/
theorem Ignores.blacklisted {state : BlockSyncClientState} {server : VerifyingKey}
    (h : state.Ignores server) : state.blacklistContainsServerAddress server = true := by
  by_contra hnot
  have hregister : ∀ height, state.registerOrUpdateSyncServer server height = state := by
    intro height
    have hperform := h.not_registered 0 0 height
    rwa [perform, if_neg hnot] at hperform
  have havailable : server ∈ state.availableSyncServers := by
    rw [← hregister 0]
    exact Std.ExtTreeMap.mem_insert_self
  refine h.not_chosen none (List.mem_map.mpr ⟨(server, _), List.mem_filter.mpr
    ⟨Std.ExtTreeMap.mem_toList_iff_getElem?_eq_some.mpr
      (Std.ExtTreeMap.getElem?_eq_some_getElem havailable), rfl⟩, rfl⟩)

/-- Either no blacklisting has expired before `now`, and all are removed, or the first one has,
and all are kept. -/
theorem blacklist_removeExpired {state : BlockSyncClientState} (now : Instant)
    (hsorted : state.blacklist.Pairwise fun a b => a.2 ≤ b.2) :
    (state.removeExpiredBlacklistedServers now).blacklist =
      if ∃ first ∈ state.blacklist.head?, first.2 < now then state.blacklist else [] := by
  show state.blacklist.dropWhile (fun entry => now ≤ entry.2) = _
  cases hblacklist : state.blacklist with
  | nil => simp
  | cons first rest =>
    rw [hblacklist] at hsorted
    obtain ⟨hfirst, -⟩ := List.pairwise_cons.mp hsorted
    simp only [List.head?_cons, Option.mem_some_iff, exists_eq_left']
    split
    · rename_i hlt
      rw [List.dropWhile_cons_of_neg (by simpa using hlt)]
    · rename_i hle
      refine List.dropWhile_eq_nil_iff.mpr fun entry hentry => ?_
      rw [decide_eq_true_eq]
      rcases List.mem_cons.mp hentry with rfl | hmem
      · exact Nat.le_of_not_lt hle
      · exact (Nat.le_of_not_lt hle).trans (hfirst entry hmem)

/-- The blacklist is what is left of all blacklistings, of which those that are gone are over. -/
structure Kept (expiryTime : Duration) (events : List (Instant × Event)) (last : Instant)
    (state : BlockSyncClientState) : Prop where
  suffix : ∃ gone, blacklistings expiryTime events = gone ++ state.blacklist ∧
    ∀ entry ∈ gone, entry.2 ≤ last
  sorted : (blacklistings expiryTime events).Pairwise fun a b => a.2 ≤ b.2
  recent : ∀ entry ∈ blacklistings expiryTime events, entry.2 ≤ last + expiryTime
  not_available : ∀ entry ∈ state.blacklist, entry.1 ∉ state.availableSyncServers

namespace Kept

variable {events : List (Instant × Event)} {last now : Instant} {state : BlockSyncClientState}

theorem sorted_blacklist (h : Kept expiryTime events last state) :
    state.blacklist.Pairwise fun a b => a.2 ≤ b.2 := by
  obtain ⟨gone, heq, -⟩ := h.suffix
  exact h.sorted.sublist (heq ▸ List.sublist_append_right gone state.blacklist)

theorem initial (now : Instant) : Kept expiryTime [] 0 (initial now) where
  suffix := ⟨[], rfl, fun _ h => nomatch h⟩
  sorted := .nil
  recent _ h := nomatch h
  not_available _ h := nomatch h

/-- An event that leaves the blacklist as it is. -/
theorem congr {state' : BlockSyncClientState} {events' : List (Instant × Event)}
    (h : Kept expiryTime events last state) (hle : last ≤ now)
    (hevents : blacklistings expiryTime events' = blacklistings expiryTime events)
    (hblacklist : state'.blacklist = state.blacklist)
    (havailable : ∀ server, (∃ entry ∈ state.blacklist, entry.1 = server) →
      server ∉ state'.availableSyncServers) : Kept expiryTime events' now state' where
  suffix := by
    obtain ⟨gone, heq, hgone⟩ := h.suffix
    exact ⟨gone, by rw [hevents, hblacklist, heq], fun e he => (hgone e he).trans hle⟩
  sorted := hevents ▸ h.sorted
  recent entry hentry :=
    (h.recent entry (hevents ▸ hentry)).trans (Nat.add_le_add_right hle expiryTime)
  not_available entry hentry := havailable entry.1 ⟨entry, hblacklist ▸ hentry, rfl⟩

theorem tick (h : Kept expiryTime events last state) (hle : last ≤ now)
    (hterm : state.TickOnTerm now) :
    Kept expiryTime (events ++ [(now, .tick)]) now (state.removeExpiredBlacklistedServers now) := by
  have hevents : blacklistings expiryTime (events ++ [(now, .tick)]) =
      blacklistings expiryTime events := by
    rw [blacklistings_concat]
    exact List.append_nil _
  have hblacklist := blacklist_removeExpired now h.sorted_blacklist
  rcases hterm with hall | ⟨hfirst, -⟩
  · have hnone : (state.removeExpiredBlacklistedServers now).blacklist = [] := by
      rw [hblacklist, if_neg]
      rintro ⟨first, hmem, hlt⟩
      exact absurd (hall first (List.mem_of_mem_head? hmem)) (ne_of_lt hlt)
    obtain ⟨gone, heq, hgone⟩ := h.suffix
    refine ⟨⟨gone ++ state.blacklist, by rw [hevents, heq, hnone, List.append_nil], ?_⟩,
      hevents ▸ h.sorted, ?_, ?_⟩
    · intro entry hentry
      rcases List.mem_append.mp hentry with hold | hnew
      · exact (hgone entry hold).trans hle
      · exact (hall entry hnew).le
    · intro entry hentry
      exact (h.recent entry (hevents ▸ hentry)).trans (Nat.add_le_add_right hle expiryTime)
    · rw [hnone]
      exact fun _ h => nomatch h
  · rw [if_pos hfirst] at hblacklist
    refine h.congr hle hevents hblacklist ?_
    rintro server ⟨entry, hentry, rfl⟩
    exact h.not_available entry hentry

theorem step {event : Event} (h : Kept expiryTime events last state) (hle : last ≤ now)
    (hterm : event = .tick → state.TickOnTerm now) :
    Kept expiryTime (events ++ [(now, event)]) now (state.perform expiryTime (now, event)) := by
  cases event with
  | tick => exact h.tick hle (hterm rfl)
  | progress highestPcView =>
    refine h.congr hle ?_ rfl ?_
    · rw [blacklistings_concat]
      exact List.append_nil _
    · rintro server ⟨entry, hentry, rfl⟩
      exact h.not_available entry hentry
  | advertiseBlock origin height =>
    have hevents : blacklistings expiryTime (events ++ [(now, .advertiseBlock origin height)]) =
        blacklistings expiryTime events := by
      rw [blacklistings_concat]
      exact List.append_nil _
    rw [perform]
    split
    · refine h.congr hle hevents rfl ?_
      rintro server ⟨entry, hentry, rfl⟩
      exact h.not_available entry hentry
    · rename_i hnot
      refine h.congr hle hevents rfl ?_
      rintro server ⟨entry, hentry, rfl⟩ hmem
      rcases Std.ExtTreeMap.mem_insert.mp hmem with heq | hold
      · exact hnot (blacklistContains_iff.mpr
          ⟨entry, hentry, (Std.LawfulEqCmp.eq_of_compare heq).symm⟩)
      · exact h.not_available entry hentry hold
  | blacklist server =>
    have hevents : blacklistings expiryTime (events ++ [(now, .blacklist server)]) =
        blacklistings expiryTime events ++ [(server, now + expiryTime)] :=
      blacklistings_concat ..
    obtain ⟨gone, heq, hgone⟩ := h.suffix
    refine ⟨⟨gone, ?_, fun e he => (hgone e he).trans hle⟩, ?_, ?_, ?_⟩
    · rw [hevents, heq, List.append_assoc]
      rfl
    · rw [hevents]
      refine List.pairwise_append.mpr ⟨h.sorted, List.pairwise_singleton _ _, ?_⟩
      intro a ha b hb
      rw [List.mem_singleton.mp hb]
      exact (h.recent a ha).trans (Nat.add_le_add_right hle expiryTime)
    · intro entry hentry
      rw [hevents] at hentry
      rcases List.mem_append.mp hentry with hold | hnew
      · exact (h.recent entry hold).trans (Nat.add_le_add_right hle expiryTime)
      · rw [List.mem_singleton.mp hnew]
    · intro entry hentry hmem
      obtain ⟨hne, hold⟩ := Std.ExtTreeMap.mem_erase.mp hmem
      rcases List.mem_append.mp hentry with hlisted | hnew
      · exact h.not_available entry hlisted hold
      · rw [List.mem_singleton.mp hnew] at hne
        exact hne Std.ReflCmp.compare_self

theorem mono (h : Kept expiryTime events last state) (hle : last ≤ now) :
    Kept expiryTime events now state :=
  h.congr hle rfl rfl fun _ ⟨entry, hentry, heq⟩ => heq ▸ h.not_available entry hentry

theorem onTerm {before : List (Instant × Event)} {event : Event} {start : BlockSyncClientState}
    (h : Kept expiryTime before now (start.performAll expiryTime before))
    (hterm : event = .tick → (start.performAll expiryTime before).TickOnTerm now) :
    OnTerm expiryTime start before now event where
  ignores server expiry hmem hlt := by
    have hnext := h.step le_rfl hterm
    obtain ⟨gone, heq, hgone⟩ := hnext.suffix
    rw [heq] at hmem
    rw [performAll_concat]
    rcases List.mem_append.mp hmem with hover | hlisted
    · exact absurd (hgone _ hover) (Nat.not_le.mpr hlt)
    · exact ignores_of_blacklisted (blacklistContains_iff.mpr ⟨_, hlisted, rfl⟩)
        (hnext.not_available _ hlisted)
  released htick server hover := by
    obtain ⟨gone, heq, -⟩ := h.suffix
    have hlisted : ∀ entry ∈ (start.performAll expiryTime before).blacklist,
        entry.1 = server → entry.2 < now := by
      rintro ⟨_, expiry⟩ hentry rfl
      exact hover expiry (heq ▸ List.mem_append_right gone hentry)
    rw [htick, performAll_concat, ← Bool.not_eq_true, blacklistContains_iff]
    rintro ⟨entry, hentry, hserver⟩
    have hblacklist := blacklist_removeExpired now h.sorted_blacklist
    rw [perform, hblacklist] at hentry
    split at hentry
    · rcases hterm htick with hall | ⟨-, hlater⟩
      · exact absurd (hlisted entry hentry hserver) (hall entry hentry).ge.not_gt
      · obtain ⟨later, hmem, hsame, hle⟩ := hlater entry hentry (hlisted entry hentry hserver)
        exact absurd (hlisted later hmem (hsame.trans hserver)) hle.not_gt
    · cases hentry

/-- A tick that keeps the terms finds the blacklist as it has to be for that. -/
theorem tickOnTerm {before : List (Instant × Event)} {start : BlockSyncClientState}
    (h : Kept expiryTime before now (start.performAll expiryTime before))
    (hterm : OnTerm expiryTime start before now .tick) :
    (start.performAll expiryTime before).TickOnTerm now := by
  obtain ⟨gone, heq, hgone⟩ := h.suffix
  have hblacklist := blacklist_removeExpired now h.sorted_blacklist
  have hlisted : ∀ entry ∈ (start.performAll expiryTime before).blacklist,
      entry ∈ blacklistings expiryTime before := fun entry hentry =>
    heq ▸ List.mem_append_right gone hentry
  by_cases hfirst : ∃ first ∈ (start.performAll expiryTime before).blacklist.head?, first.2 < now
  · refine .inr ⟨hfirst, fun entry hentry hlt => ?_⟩
    rw [if_pos hfirst] at hblacklist
    by_contra hnone
    have hreleased := hterm.released rfl entry.1 fun expiry hmem => by
      by_contra hle
      rw [heq] at hmem
      rcases List.mem_append.mp hmem with hover | hin
      · -- What is gone from the blacklist is older than what is there.
        have hsorted := h.sorted
        rw [heq] at hsorted
        have hge : expiry ≤ entry.2 := (List.pairwise_append.mp hsorted).2.2 _ hover entry hentry
        exact hle (hge.trans_lt hlt)
      · exact hnone ⟨(entry.1, expiry), hin, rfl, Nat.le_of_not_lt hle⟩
    rw [performAll_concat, perform, ← Bool.not_eq_true, blacklistContains_iff] at hreleased
    exact hreleased ⟨entry, hblacklist ▸ hentry, rfl⟩
  · left
    intro entry hentry
    rw [if_neg hfirst] at hblacklist
    have hge : now ≤ entry.2 := by
      cases hcons : (start.performAll expiryTime before).blacklist with
      | nil =>
        rw [hcons] at hentry
        cases hentry
      | cons first rest =>
        have hsorted := h.sorted_blacklist
        rw [hcons] at hfirst hentry hsorted
        simp only [List.head?_cons, Option.mem_some_iff, exists_eq_left', not_lt] at hfirst
        rcases List.mem_cons.mp hentry with rfl | hmem
        · exact hfirst
        · exact hfirst.trans ((List.pairwise_cons.mp hsorted).1 entry hmem)
    refine le_antisymm (Nat.le_of_not_lt fun hlt => ?_) hge
    have hignores := hterm.ignores entry.1 entry.2
      (by rw [blacklistings_concat]; exact List.mem_append_left _ (hlisted entry hentry)) hlt
    have hblacklisted := hignores.blacklisted
    rw [performAll_concat, perform, blacklistContains_iff, hblacklist] at hblacklisted
    obtain ⟨_, hmem, -⟩ := hblacklisted
    cases hmem

end Kept

/-- If each tick finds the blacklist as it has to be, all blacklistings so far are kept. -/
theorem kept_of_ticks {events : List (Instant × Event)} {start : Instant}
    (htimes : events.Pairwise fun a b => a.1 ≤ b.1)
    (hticks : ∀ before now after, events = before ++ (now, .tick) :: after →
      Kept expiryTime before now ((initial start).performAll expiryTime before) →
      ((initial start).performAll expiryTime before).TickOnTerm now) :
    ∀ last, (∀ event ∈ events, event.1 ≤ last) →
      Kept expiryTime events last ((initial start).performAll expiryTime events) := by
  induction events using List.reverseRecOn with
  | nil =>
    intro last _
    exact (Kept.initial start).mono (Nat.zero_le last)
  | append_singleton before event ih =>
    obtain ⟨now, event⟩ := event
    intro last hlast
    obtain ⟨hbefore, -, hle⟩ := List.pairwise_append.mp htimes
    have hkept := ih hbefore (fun before' now' after heq => hticks before' now'
      (after ++ [(now, event)]) (by rw [heq, List.append_assoc, List.cons_append])) now
      fun e he => hle e he _ (List.mem_singleton_self _)
    rw [performAll_concat]
    refine (hkept.step le_rfl fun htick => ?_).mono
      (hlast _ (List.mem_append_right _ (List.mem_singleton_self _)))
    exact hticks before now [] (by rw [htick]) hkept

/-- In every sequence of events the terms of all blacklistings are kept at each event, exactly
if each tick finds the blacklist empty, or all of it expiring just then, or its first entry
expired and a later one that is not expired for each server that has an expired one. -/
theorem onTerm_iff (expiryTime : Duration) (start : Instant) (events : List (Instant × Event))
    (htimes : events.Pairwise fun a b => a.1 ≤ b.1) :
    (∀ before now event after, events = before ++ (now, event) :: after →
      OnTerm expiryTime (initial start) before now event) ↔
    ∀ before now after, events = before ++ (now, .tick) :: after →
      ((initial start).performAll expiryTime before).TickOnTerm now := by
  -- What comes before an event is a sequence of events again.
  have hbefore : ∀ {before now event after}, events = before ++ (now, event) :: after →
      (∀ before' now' after', events = before' ++ (now', .tick) :: after' →
        Kept expiryTime before' now' ((initial start).performAll expiryTime before') →
        ((initial start).performAll expiryTime before').TickOnTerm now') →
      Kept expiryTime before now ((initial start).performAll expiryTime before) := by
    rintro before now event after rfl hticks
    obtain ⟨hpairs, -, hle⟩ := List.pairwise_append.mp htimes
    refine kept_of_ticks hpairs (fun before' now' after' heq => ?_) now
      fun e he => hle e he _ List.mem_cons_self
    refine hticks before' now' (after' ++ (now, event) :: after) ?_
    rw [heq, List.append_assoc, List.cons_append]
  constructor
  · intro honTerm before now after heq
    refine (hbefore heq fun before' now' after' heq' hkept => ?_).tickOnTerm
      (honTerm before now .tick after heq)
    exact hkept.tickOnTerm (honTerm before' now' .tick after' heq')
  · intro hticks before now event after heq
    refine (hbefore heq fun before' now' after' heq' _ =>
      hticks before' now' after' heq').onTerm ?_
    rintro rfl
    exact hticks before now after heq

/-- A tick when the first term of a server is over, but not its second. -/
theorem onTerm_iff_sample :
    OnTerm 10 (initial 0) [(0, .blacklist 3), (5, .blacklist 3)] 12 .tick := by
  refine (onTerm_iff 10 0 [(0, .blacklist 3), (5, .blacklist 3), (12, .tick)] (by decide)).mpr ?_
    [(0, .blacklist 3), (5, .blacklist 3)] 12 .tick [] rfl
  intro before now after heq
  -- The only tick is the last event.
  have hsplit : before = [(0, .blacklist 3), (5, .blacklist 3)] ∧ now = 12 := by
    rcases before with _ | ⟨first, _ | ⟨second, _ | ⟨third, rest⟩⟩⟩ <;> simp_all
  obtain ⟨rfl, rfl⟩ := hsplit
  have hblacklist : ((initial 0).performAll 10
      [(0, .blacklist 3), (5, .blacklist 3)]).blacklist = [(3, 10), (3, 15)] := rfl
  unfold TickOnTerm
  rw [hblacklist]
  exact .inr (by simp)

/-- The first tick after a blacklisting removes it, long before its term is over. -/
theorem not_onTerm : ¬∀ (expiryTime : Duration) (start : Instant)
    (events : List (Instant × Event)), events.Pairwise (fun a b => a.1 ≤ b.1) →
    ∀ before now event after, events = before ++ (now, event) :: after →
      OnTerm expiryTime (initial start) before now event := by
  intro h
  have hterm := h 10 0 [(0, .blacklist 3), (1, .tick)] (by decide) [(0, .blacklist 3)] 1 .tick [] rfl
  have hblacklisted := (hterm.ignores 3 10 (by decide) (by decide)).blacklisted
  cases hblacklisted

end BlockSyncClientState

/-! ## The handlers -/

namespace BlockSyncClient

variable {cr : Crypto} {app : App} {fuel : Nat} {now : Instant} {client : BlockSyncClient}

/-- Since `client`, at time `now`, only events have happened to the state. -/
def Performs (client : BlockSyncClient) (now : Instant) (w : World BlockSyncClient Action Var.Val) :
    Prop :=
  w.mem.config = client.config ∧ ∃ events : List BlockSyncClientState.Event,
    w.mem.state = client.state.performAll client.config.blacklistExpiryTime
      (events.map fun event => (now, event))

namespace Performs

variable {w : World BlockSyncClient Action Var.Val}

theorem refl (h : w.mem = client) : Performs client now w :=
  ⟨by rw [h], [], by rw [h]; rfl⟩

/-- One more event. -/
theorem perform {w' : World BlockSyncClient Action Var.Val} (h : Performs client now w)
    (event : BlockSyncClientState.Event) (hconfig : w'.mem.config = w.mem.config)
    (hstate : w'.mem.state =
      w.mem.state.perform client.config.blacklistExpiryTime (now, event)) :
    Performs client now w' := by
  obtain ⟨hconfig', events, heq⟩ := h
  refine ⟨hconfig.trans hconfig', events ++ [event], ?_⟩
  rw [hstate, heq, List.map_append, List.map_singleton, BlockSyncClientState.performAll_concat]

end Performs

/-- A handler that only performs events, also where it fails. -/
abbrev KeepsEvents {α : Type} (client : BlockSyncClient) (now : Instant) (m : Handler α) : Prop :=
  Keeps (Performs client now) (Performs client now) m

theorem keepsEvents_lift {α : Type} (x : Result α) : KeepsEvents client now (lift x) :=
  .lift (fun _ => id) x

theorem keepsEvents_act (a : Action) : KeepsEvents client now (act a) := .act fun _ => id

theorem keepsEvents_write (wb : Kv.Batch Var.Val) : KeepsEvents client now (write wb) :=
  fun _ => id

theorem keepsEvents_blacklist {peer : VerifyingKey} :
    KeepsEvents client now (blacklist now peer) := by
  refine .bind_mem fun w h => .lift_bind (fun _ => id) fun state hstate =>
    .bind (.setMem fun _ _ => h.perform (.blacklist peer) rfl ?_) fun _ => .pure _
  rw [h.1] at hstate
  exact (BlockSyncClientState.blacklistSyncServer_eq_ok.mp hstate).2.symm

theorem keepsEvents_endSync {peer : VerifyingKey} {initHeight : BlockHeight} {blocksSynced : Nat} :
    KeepsEvents client now (endSync now peer initHeight blocksSynced) :=
  .bind .mem fun _ => .bind (keepsEvents_lift _) fun _ => .bind (keepsEvents_lift _) fun _ =>
    .ite keepsEvents_blacklist (.pure _)

theorem keepsEvents_sendRequest {peer : VerifyingKey} :
    KeepsEvents client now (sendRequest peer) := by
  refine .bind .mem fun client => .bind .store fun tree => .bind (keepsEvents_lift _) fun height => ?_
  cases height with
  | some height => exact .bind (keepsEvents_lift _) fun _ => keepsEvents_act _
  | none => exact .bind (.pure _) fun _ => keepsEvents_act _

theorem keepsEvents_responseDeadline : KeepsEvents client now (responseDeadline now) :=
  .bind .mem fun _ => keepsEvents_lift _

theorem keepsEvents_updateWithHighestPc {highestPc : PhaseCertificate} :
    KeepsEvents client now (updateWithHighestPc cr fuel highestPc) := by
  refine .bind .mem fun _ => .bind .store fun _ => .bind (keepsEvents_lift _) fun isCorrect => ?_
  have hupdate : ∀ isSafe : Bool, ∀ tree : BlockTree, KeepsEvents client now (do
      if isSafe then
        let updated ← lift (tree.updateBatch fuel highestPc)
        write updated.1
      else pure () : Handler Unit) := fun _ _ =>
    .ite (.bind (keepsEvents_lift _) fun _ => keepsEvents_write _) (.pure _)
  exact .ite (.bind (keepsEvents_lift _) fun _ => hupdate _ _) (.bind (.pure _) fun _ => hupdate _ _)

theorem keepsEvents_syncBlock {block : Block} :
    KeepsEvents client now (syncBlock cr app fuel block) := by
  refine .bind .mem fun client => .bind .store fun tree => .bind (keepsEvents_lift _) fun isCorrect =>
    .ite (.bind (keepsEvents_lift _) fun isSafe => ?_) (.bind (.pure _) fun isSafe => ?_)
  all_goals
    refine .ite (.pure _) (.bind (keepsEvents_lift _) fun view => ?_)
    split
    · refine .bind (keepsEvents_write _) fun _ => .bind .store fun tree =>
        .bind (keepsEvents_lift _) fun updated => .bind (keepsEvents_write _) fun _ => ?_
      cases updated.2 with
      | some updates => exact .bind (keepsEvents_act _) fun _ => .pure _
      | none => exact .pure _
    · exact .pure _

theorem keepsEvents_syncBlocks {highestPc : PhaseCertificate} (blocks : List Block) :
    ∀ blocksSynced, KeepsEvents client now
      (syncBlocks cr app fuel highestPc blocks blocksSynced) := by
  induction blocks with
  | nil => exact fun _ => .pure _
  | cons block rest ih =>
    exact fun _ => .bind keepsEvents_syncBlock fun accepted =>
      .ite (.bind keepsEvents_updateWithHighestPc fun _ => ih _) (.pure _)

theorem keepsEvents_syncLoop {peer : VerifyingKey} {initHeight : BlockHeight}
    (responses : List BlockSyncResponse) :
    ∀ blocksSynced, KeepsEvents client now
      (syncLoop cr app fuel now peer initHeight responses blocksSynced) := by
  induction responses with
  | nil =>
    exact fun _ => .bind keepsEvents_sendRequest fun _ => .bind keepsEvents_responseDeadline
      fun _ => keepsEvents_endSync
  | cons response responses ih =>
    exact fun _ => .bind keepsEvents_sendRequest fun _ => .bind keepsEvents_responseDeadline
      fun _ => .bind .store fun tree => .ite keepsEvents_endSync
        (.bind (keepsEvents_syncBlocks _ _) fun _ => .ite (ih _) keepsEvents_blacklist)

theorem keepsEvents_sync {choice : Nat} {responses : List BlockSyncResponse} :
    KeepsEvents client now (sync cr app fuel now choice responses) := by
  have htail : KeepsEvents client now (do
      let client ← (mem : Handler _)
      setMem { client with state := { client.state with lastProgressOrSyncTime := now } }) :=
    .bind_mem fun w h => .setMem fun _ _ =>
      h.perform (.progress w.mem.state.highestPcView) rfl rfl
  refine .bind .mem fun client => .bind .store fun tree =>
    .bind (keepsEvents_lift _) fun minHeight => ?_
  dsimp only
  split
  · refine .bind (.bind .store fun tree => .bind (keepsEvents_lift _) fun initHeight => ?_)
      fun _ => htail
    exact keepsEvents_syncLoop _ _
  · exact htail

/-- An advertisement from a server on the blacklist is ignored, and any other one can register
the server or make the client sync, at the end of which a server may be blacklisted. -/
theorem keepsEvents_onReceiveMsg {msg : BlockSyncAdvertiseMessage} {origin : VerifyingKey}
    {choice : Nat} {responses : List BlockSyncResponse} :
    KeepsEvents client now (onReceiveMsg cr app fuel now msg origin choice responses) := by
  cases msg with
  | advertiseBlock msg =>
    refine .bind_mem fun w h => .bind .store fun tree => .ite (.pure _) <|
      .bind (keepsEvents_lift _) fun isServer => ?_
    split
    · exact .pure _
    · rename_i hnot
      rw [Bool.or_eq_true, not_or] at hnot
      refine .setMem fun _ _ => h.perform
        (.advertiseBlock origin msg.highestCommittedBlockHeight) rfl ?_
      exact (if_neg hnot.2).symm
  | advertisePc msg =>
    exact .bind .mem fun _ => .bind .store fun tree => .bind (keepsEvents_lift _) fun entered =>
      .ite (.pure _) <| .bind (keepsEvents_lift _) fun difference =>
        .ite (.bind (keepsEvents_lift _) fun isCorrect => .ite keepsEvents_sync (.pure _)) (.pure _)

/-- A tick removes blacklistings before all else. -/
theorem keepsEvents_tick {choice : Nat} {responses : List BlockSyncResponse} :
    KeepsEvents client now (tick cr app fuel now choice responses) := by
  refine .bind_mem fun w h => .bind .store fun _ => .bind (keepsEvents_lift _) fun highestPc =>
    .bind (.setMem fun w' _ => ?_) fun _ => .ite keepsEvents_sync (.pure _)
  have hticked : Performs client now (w'.setMem { w.mem with
      state := w.mem.state.removeExpiredBlacklistedServers now }) := h.perform .tick rfl rfl
  split
  · exact hticked.perform (.progress highestPc.view) rfl rfl
  · exact hticked

end BlockSyncClient
end HotStuffRs
