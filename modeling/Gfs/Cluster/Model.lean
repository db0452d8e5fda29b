import Gfs.Chunkserver.Group
import Gfs.Common.Paths
import Gfs.Lib.Transition
import Gfs.Master.ChunkMeta

/-!
# The master, the chunkservers and the messages between them, for one chunk

The state is the part of the whole system that concerns one handle: the entry of the chunk table, the
places in files that refer to the chunk, the calls in progress on the master, the requests and
answers in flight, and the chunkservers. A step is a section under a mutex of the source. A request
may stay in flight for ever, be executed after its caller has given up, or lose its answer.

Several fields are history variables that no step reads: `targets`, the chunkservers that were asked
to create the chunk, `executed`, `forgotten`, `corruptReports`, `issued` and `history`.
-/

namespace Gfs.Cluster
open Chunkserver Master

/-! ## Messages -/

inductive Body
  | grantLease (version : Nat) (secondaries : List ServerId)
  | updateVersion (version : Nat)
  | revokeLease
  | createChunk (version : Nat)
deriving DecidableEq

structure Request where
  number : Nat
  target : ServerId
  body : Body
deriving DecidableEq

structure Answer where
  number : Nat
  target : ServerId
  ok : Bool
deriving DecidableEq

/-- A `HeartBeatRequest` with what it says about the chunk. -/
structure Beat where
  number : Nat
  server : ServerId
  version : Option Nat
  extend : Bool
  corrupt : Bool
deriving DecidableEq

/-- A `HeartBeatResponse`; `time` is the clock that the handler had read. -/
structure BeatAnswer where
  beat : Beat
  time : TimePoint
  delete : Bool
  extended : Bool
deriving DecidableEq

/-- How far `SendHeartbeat` has come. -/
inductive Sender
  | listed (version : Option Nat)
  | asked (version : Option Nat) (extend : Bool)
  | sent (beat : Beat)
  | answered (answer : BeatAnswer)
  | removing (answer : BeatAnswer)
  | extending (answer : BeatAnswer)
deriving DecidableEq

def Sender.version : Sender → Option Nat
  | .listed version | .asked version _ => version
  | _ => none

def Sender.answer? : Sender → Option BeatAnswer
  | .answered a | .removing a | .extending a => some a
  | _ => none

def Sender.removing? : Sender → Option BeatAnswer
  | .removing a => some a
  | _ => none

/-! ## Calls in progress on the master -/

/-- What a client learns from `FindLeaseHolder`. -/
structure Known where
  path : Str
  index : Nat
  version : Nat
  primary : ServerId
deriving DecidableEq

/-- `waiting` has sent the requests with this number; `clearing` is about to run `clear_granting`. -/
inductive Phase
  | preparing
  | resolving (attempt : Attempt) (todo list : List ServerId)
  | waiting (attempt : Attempt) (list : List ServerId) (number : Nat)
  | clearing
  | returning (attempt : Option (Attempt × Nat))
deriving DecidableEq

def Phase.trying? : Phase → Option Attempt
  | .resolving attempt _ _ | .waiting attempt _ _ => some attempt
  | _ => none

def Phase.number? : Phase → Option Nat
  | .waiting _ _ number => some number
  | _ => none

theorem number?_eq_some {phase : Phase} {number : Nat} :
    phase.number? = some number ↔ ∃ attempt list, phase = .waiting attempt list number := by
  cases phase <;> simp [Phase.number?]

def Phase.attempt? : Phase → Option Attempt
  | .resolving attempt _ _ | .waiting attempt _ _ => some attempt
  | .returning attempt => attempt.map (·.1)
  | _ => none

/-- The `GrantSerialized` in progress, for the `FindLeaseHolder` of `client` or for `Regrant`. -/
structure GrantCall where
  client : Option (Str × Nat)
  round : Nat := 0
  phase : Phase := .preparing
deriving DecidableEq

inductive FindPhase
  | attempt
  | copy
  | copying
  | decide
  | parked (until_ : TimePoint)
  | queued
deriving DecidableEq

/-- A `FindLeaseHolder` whose file has the chunk at this index. -/
structure Find where
  path : Str
  index : Nat
  phase : FindPhase
deriving DecidableEq

structure Snapshot where
  source : Str
  target : Str
deriving DecidableEq

/-- A `Revoke` whose `RevokeLease` is under way, for a snapshot or for another caller. -/
structure RevokeCall where
  number : Nat
  primary : ServerId
  expiry : TimePoint
  snapshot : Option Snapshot
deriving DecidableEq

/-- `AddChunk`, or `CopyOnWrite` with this chunk as the copy, waiting for its `CreateChunk`s. -/
structure CreateCall where
  path : Str
  index : Nat
  number : Nat
  targets : List ServerId
  copy : Bool
deriving DecidableEq

structure Info where
  lastHeartbeat : TimePoint
  alive : Bool
deriving DecidableEq

/-- Store calls with the path that the mutation was issued through, deletions on the master's word,
and the end of snapshots. -/
inductive Event
  | stored (server : ServerId) (path : Option Str) (refs : List (Str × Nat))
  | removed (server : ServerId) (stored : Nat) (chunk : Option Nat) (refs : List (Str × Nat))
      (corrupt : Bool)
  | snapshotOk (source target : Str)
deriving DecidableEq

end Gfs.Cluster

namespace Gfs
open Chunkserver Master Cluster

/-- The part of the state that versions and leases depend on. -/
structure Cluster.Core where
  group : Group
  chunk : Option ChunkMeta := none
  refs : List (Str × Nat) := []
  allocated : Bool := false
  targets : List ServerId := []
  number : Nat := 0
  requests : List Request := []
  answers : List Answer := []
  ended : List Answer := []
  senders : ServerId → Option Sender := fun _ => none
  beats : List Beat := []
  handling : List (Beat × TimePoint) := []
  beatAnswers : List BeatAnswer := []
  grant : Option GrantCall := none
  creating : Option CreateCall := none
  known : List Known := []
  executed : List Nat := []
  forgotten : List (ServerId × TimePoint) := []
  corruptReports : List ServerId := []
  history : List Event := []

/-- `parked` are the snapshots that have nothing to revoke any more. -/
structure Cluster extends Cluster.Core where
  registry : Std.ExtTreeMap ServerId Info := ∅
  sweeping : Option (TimePoint × List ServerId) := none
  regrantPending : Bool := false
  finds : List Find := []
  snapshots : List Snapshot := []
  parked : List (Snapshot × TimePoint) := []
  revokes : List RevokeCall := []
  issued : List Str := []

namespace Cluster

def Core.replica (s : Core) (server : ServerId) : Replica := s.group.replicas server

def Core.held (s : Core) (server : ServerId) : Option TimePoint :=
  LeaseTable.heldUntil (s.replica server).slot

def Core.recorded (s : Core) : Option (ServerId × TimePoint) :=
  s.chunk.bind fun m => m.lease.map fun l => (l.primary, l.expiry)

/-- The leases in the master's books, with those that it has lost track of. -/
def Core.books (s : Core) : List (ServerId × TimePoint) := s.recorded.toList ++ s.forgotten

def Core.round? (s : Core) : Option Nat := s.grant.bind (·.phase.number?)

def Core.attempt? (s : Core) : Option Attempt := s.grant.bind (·.phase.attempt?)

def Core.now (s : Core) : TimePoint := s.group.now

def setReplica (s : Cluster) (server : ServerId) (r : Replica) : Cluster :=
  { s with group := s.group.setReplica server r }

/-- `registry_.Resolve(id)` has a value. -/
def alive (s : Cluster) (server : ServerId) : Bool := (s.registry[server]?).any (·.alive)

def setChunk (s : Cluster) (m : ChunkMeta) : Cluster := { s with chunk := some m }

end Cluster

end Gfs
