import HotStuffRs.Networking.SignedMessages
import HotStuffRs.Replica.Authentic
import HotStuffRs.Replica.Votes
import HotStuffRs.Types.Uniqueness

/-
A network of replicas.

Some replicas run this code over the same block tree.  Everybody else may send them anything
at any time, but can neither sign for them nor speak in their names.
-/

namespace HotStuffRs

open Kv

/-! ## What a replica sends -/

/-- What the algorithm thread of a replica sends in `log`, and what its sync server may
advertise beside it. -/
inductive Sends (cr : Crypto) (config : Configuration) (s₀ : BlockTree) (log : List Event) :
    ProgressMessage → Prop
  | send {peer msg} (h : .effect (.act (.send peer (.progress msg))) ∈ log) :
    Sends cr config s₀ log msg
  | broadcast {msg} (h : .effect (.act (.broadcast (.progress msg))) ∈ log) :
    Sends cr config s₀ log msg
  | advertiseBlock {before} {m : AdvertiseBlock} (h : before <+: log)
      (hchain : m.chainId = config.chainId)
      (hheight : m.highestCommittedBlockHeight = (s₀.replay before).committedHeight.getD 0)
      (hsignature : m.signature = cr.sign config.me m.messageBytes) :
    Sends cr config s₀ log (.blockSyncAdvertise (.advertiseBlock m))
  | advertisePc {before pc} (h : before <+: log) (hpc : s₀.replay before .highestPc = some pc) :
    Sends cr config s₀ log (.blockSyncAdvertise (.advertisePc ⟨pc⟩))

/-- The signed message that `msg` is, if it is one. -/
def ProgressMessage.signed? : ProgressMessage → Option SignedMessage
  | .hotStuff (.phaseVote vote) => some (.phaseVote vote)
  | .pacemaker (.timeoutVote vote) => some (.timeoutVote vote)
  | .blockSyncAdvertise (.advertiseBlock m) => some (.advertiseBlock m)
  | _ => none

/-- A replica signs the votes and advertisements that it sends. -/
def Signs (cr : Crypto) (config : Configuration) (s₀ : BlockTree) (log : List Event)
    (message : List Byte) : Prop :=
  ∃ msg signed, Sends cr config s₀ log msg ∧ msg.signed? = some signed ∧
    message = signed.messageBytes

/-! ## Networks -/

/-- The replicas in `honest` run this code with `config`, and `log` is what each has done.  All
validators but these together have less than a third of the power of each validator set that
one of the replicas holds. -/
structure Network (cr : Crypto) (apps : App → Prop) (s₀ : BlockTree)
    (honest : Finset VerifyingKey) (config : VerifyingKey → Configuration)
    (log : VerifyingKey → List Event) : Prop where
  me : ∀ v ∈ honest, (config v).me = v
  chainId : ∀ v ∈ honest, ∀ v' ∈ honest, (config v).chainId = (config v').chainId
  history : ∀ v ∈ honest, HistoryUnder cr (config v) apps s₀
    (fun _ _ input _ => ∀ origin ∈ honest, ∀ msg, input.message = some (origin, msg) →
      Sends cr (config origin) s₀ (log origin) msg) (log v)
  unforgeable : ∀ v ∈ honest, Unforgeable cr (fun v => Signs cr (config v) s₀ (log v)) v
  power : ∀ v ∈ honest, ∀ vs, Held s₀ (log v) vs →
    3 * vs.powerOf (vs.members \ honest) < vs.totalPower

end HotStuffRs
