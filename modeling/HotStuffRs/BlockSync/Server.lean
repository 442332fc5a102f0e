import HotStuffRs.BlockTree.Snapshot
import HotStuffRs.Networking.Messages

/-
The block sync server.

It answers a request from a snapshot of the block tree.  An error that the tree returns is not
an answer; a panic ends the server.
-/

namespace HotStuffRs

open BlockTree

structure BlockSyncServerConfiguration where
  chainId : ChainID
  requestLimit : U32
  deriving DecidableEq

/-- What a getter has returned, unless it is an error of the block tree. -/
def Result.attempt {α : Type} : Result α → Result (Option α)
  | .ok a => .ok (some a)
  | .error (.error _) => .ok none
  | .error e => .error e

theorem Result.attempt_eq_some {α : Type} {x : Result α} {a : α} :
    x.attempt = .ok (some a) ↔ x = .ok a := by
  cases x with
  | ok b => simp [attempt]
  | error e => cases e <;> simp [attempt]

namespace BlockSyncServerConfiguration

variable (config : BlockSyncServerConfiguration)

/-- The limit that a request is served with. -/
def limit (request : BlockSyncRequest) : U32 := max request.limit config.requestLimit

/-- The response to a request, if there is one. -/
def onRequest (s : BlockTree) (fuel : Nat) (request : BlockSyncRequest) :
    Result (Option BlockSyncResponse) := do
  if request.chainId ≠ config.chainId then return none
  else
    let blocks ←
      (s.blocksFromHeightToNewest fuel request.startHeight (config.limit request)).attempt
    let highestPc ← s.kv.highestPc.attempt
    match blocks, highestPc with
    | some blocks, some highestPc => return some ⟨blocks, highestPc⟩
    | _, _ => return none

variable {config}

/-- The limit of the server holds for the requests that do not ask for more. -/
theorem limit_le_iff {request : BlockSyncRequest} :
    config.limit request ≤ config.requestLimit ↔ request.limit ≤ config.requestLimit := by
  simp [limit]

/-- A response has the blocks of the snapshot and its highest PC. -/
theorem onRequest_eq_some {s : BlockTree} {fuel : Nat} {request : BlockSyncRequest}
    {response : BlockSyncResponse} :
    config.onRequest s fuel request = .ok (some response) ↔
      request.chainId = config.chainId ∧
      s.blocksFromHeightToNewest fuel request.startHeight (config.limit request) =
        .ok response.blocks ∧
      s .highestPc = some response.highestPc := by
  obtain ⟨blocks, highestPc⟩ := response
  rw [← kv_highestPc_eq_ok, onRequest]
  by_cases hchain : request.chainId = config.chainId
  · simp only [hchain, ne_eq, not_true_eq_false, if_false, true_and, Result.bind_eq_ok]
    constructor
    · rintro ⟨blocks', hblocks, highestPc', hhighestPc, hresponse⟩
      cases blocks' with
      | none => cases hresponse
      | some blocks' =>
        cases highestPc' with
        | none => cases hresponse
        | some highestPc' =>
          cases hresponse
          exact ⟨Result.attempt_eq_some.mp hblocks, Result.attempt_eq_some.mp hhighestPc⟩
    · rintro ⟨hblocks, hhighestPc⟩
      exact ⟨some blocks, Result.attempt_eq_some.mpr hblocks, some highestPc,
        Result.attempt_eq_some.mpr hhighestPc, rfl⟩
  · simp [hchain]

end BlockSyncServerConfiguration

end HotStuffRs
