import Gfs.Chunkserver.Replica
import Gfs.Client.Model
import Gfs.Master.ChunkMeta
import Mathlib.Logic.Function.Basic

/-!
# A cluster that is up and has one client

The handlers of `master/master.cc` and `chunkserver/chunkserver.cc` behind the calls of one client
for one file. Nothing else runs and nothing fails, so that a handler goes from its start to its
answer by itself; before each call time passes and chunkservers ask for the extension of leases.
-/

namespace Gfs.Client
open Chunkserver (BufferKey ChunkEntry DataBuffer MutationOp Slot)
open Master (ChunkMeta)

/-- `passes` and `beats` are what happens before a call: the time that goes by, and the leases for
which a heartbeat asks. `chooses` is `ChooseServers`. -/
structure Setting where
  cfg : Config
  maxAppend : Nat
  path : Str
  chooses : Handle → List ServerId
  replica : ServerId → Replica
  passes : Nat → Duration
  beats : Nat → List (ServerId × Handle)
  positive : 0 < cfg.chunkSize
  short : cfg.chunkSize < 2 ^ 64
  named : ∀ server, (replica server).chunkserverId = server

structure Server where
  buffer : DataBuffer
  entries : Handle → Option ChunkEntry := fun _ => none
  slots : Handle → Option Slot := fun _ => none

/-- `file` has the handles of the file, `calls` is the number of calls so far. -/
structure World where
  clock : TimePoint
  calls : Nat := 0
  file : List Handle := []
  chunks : Handle → Option ChunkMeta := fun _ => none
  nextHandle : Handle := 1
  servers : ServerId → Server

namespace World

def view (w : World) (server : ServerId) (handle : Handle) : Chunkserver.Replica where
  entry := (w.servers server).entries handle
  slot := (w.servers server).slots handle
  buffer := (w.servers server).buffer

def keep (w : World) (server : ServerId) (handle : Handle) (r : Chunkserver.Replica) : World :=
  { w with
    servers := Function.update w.servers server
      { buffer := r.buffer
        entries := Function.update (w.servers server).entries handle r.entry
        slots := Function.update (w.servers server).slots handle r.slot } }

def setChunk (w : World) (handle : Handle) (m : ChunkMeta) : World :=
  { w with chunks := Function.update w.chunks handle (some m) }

/-- `HandlesToExtend`, `ExtendLocked` and `Extend` for one chunk of a heartbeat. -/
def extend (e : Setting) (w : World) (asked : ServerId × Handle) : World :=
  let r := w.view asked.1 asked.2
  if Chunkserver.LeaseTable.toExtend w.clock r.slot then
    match (w.chunks asked.2).bind fun m => m.extendLocked e.cfg asked.1 w.clock with
    | none => w
    | some m =>
        (w.keep asked.1 asked.2 (r.extendLease e.cfg w.clock e.cfg.leaseDuration)).setChunk asked.2 m
  else w

def tick (e : Setting) (w : World) : World :=
  (e.beats w.calls).foldl (extend e)
    { w with clock := w.clock + e.passes w.calls, calls := w.calls + 1 }

/-! ## The master -/

def openFile (e : Setting) (path : Str) (w : World) : GrpcCode × Nat :=
  if path = e.path then (.ok, w.file.length) else (.notFound, 0)

def createOn (handle : Handle) (w : World) (server : ServerId) : World :=
  w.keep server handle ((w.view server handle).createChunk 1 []).2

def addChunk (e : Setting) (path : Str) (index : Nat) (w : World) :
    (GrpcCode × ResultCode) × World :=
  if path ≠ e.path then ((.notFound, .ok), w)
  else if index < w.file.length then ((.ok, .ok), w)
  else if w.file.length < index then ((.invalidArgument, .ok), w)
  else
    let handle := w.nextHandle
    let servers := e.chooses handle
    let w := servers.foldl (createOn handle) { w with nextHandle := handle + 1 }
    if servers.length < e.cfg.minReplicasForWrite ∨ servers = [] then ((.ok, .noReplicas), w)
    else
      let m := servers.foldl (fun m server => m.addLocation server w.clock) { refcount := 1 }
      ((.ok, .ok), { w.setChunk handle m with file := w.file ++ [handle] })

/-- `FillChunkInfoLocked`. -/
def chunkInfo (e : Setting) (w : World) (index : Nat) : Option (Nat × ChunkInfo) :=
  w.file[index]?.bind fun handle => (w.chunks handle).map fun m =>
    (index, { handle, version := m.version, replicas := m.locations.keys.map e.replica })

def findLocation (e : Setting) (path : Str) (first count : Nat) (w : World) :
    GrpcCode × List (Nat × ChunkInfo) :=
  if path ≠ e.path then (.notFound, [])
  else
    let asked := (List.range w.file.length).filter fun index =>
      first ≤ index ∧ index < u64 (first + max 1 count)
    (.ok, asked.filterMap (w.chunkInfo e))

def noLease : Lease := ⟨0, 0, ⟨[], [], []⟩, []⟩

/-- The handlers of `GrantLease` and `UpdateVersion`. -/
def takeVersion (e : Setting) (handle : Handle) (half : Chunkserver.Half) (w : World)
    (server : ServerId) : World :=
  w.keep server handle <| match (w.view server handle).setVersion .ok half.version half with
    | (.ok, r) => r.completeHalf e.cfg w.clock half
    | (_, r) => r

/-- `GrantSerialized`, every chunkserver of the group being up and having the chunk. -/
def grant (e : Setting) (handle : Handle) (m : ChunkMeta) (w : World) :
    (GrpcCode × ResultCode × Lease) × World :=
  match m.prepareLocked e.cfg fun _ => true with
  | none => ((.ok, .noReplicas, noLease), w)
  | some (attempt, m) =>
      let w := w.takeVersion e handle
        (.grant attempt.version e.cfg.leaseDuration attempt.secondaries 0) attempt.primary
      let w := attempt.secondaries.foldl (takeVersion e handle (.update attempt.version 0)) w
      let m := m.commit e.cfg w.clock attempt
      ((.ok, .ok,
        { handle
          version := m.version
          primary := e.replica attempt.primary
          secondaries := attempt.secondaries.map e.replica }), w.setChunk handle m)

/-- A lease that is pending is waited for, and then it has run out. -/
def waited (e : Setting) (w : World) (m : ChunkMeta) : TimePoint :=
  match m.lease.filter fun _ => m.isPendingExpiry e.cfg w.clock with
  | some lease => ChunkMeta.waitUntil e.cfg lease
  | none => w.clock

def findLeaseHolder (e : Setting) (path : Str) (index : Nat) (w : World) :
    (GrpcCode × ResultCode × Lease) × World :=
  match (w.file[index]?.filter fun _ => path = e.path), w.file[index]?.bind w.chunks with
  | some handle, some m =>
      match m.lease.filter fun _ => m.isValid e.cfg w.clock with
      | some lease =>
          ((.ok, .ok,
            { handle
              version := m.version
              primary := e.replica lease.primary
              secondaries := (m.locations.keys.filter (· ≠ lease.primary)).map e.replica }), w)
      | none =>
          let m' := { m with lease := none }
          ({ w with clock := w.waited e m }.setChunk handle m').grant e handle m'
  | _, _ => ((.notFound, .ok, noLease), w)

/-! ## The chunkservers -/

/-- The steps of a mutation handler up to its answer, or up to `ForwardMutation`. -/
def serve (cfg : Config) (now : TimePoint) : Nat → Chunkserver.Replica → Chunkserver.Outcome
  | 0, r => { replica := r }
  | steps + 1, r =>
      match r.advance cfg now .ok with
      | none => { replica := r }
      | some out => if out.response.isSome then out else serve cfg now steps out.replica

/-- A mutation handler, from `LockForMutation` on. -/
def handler (e : Setting) (w : World) (server : ServerId) (handle : Handle)
    (origin : Chunkserver.Origin) (op : MutationOp) : Chunkserver.Outcome :=
  match (w.view server handle).start origin op with
  | none => { replica := w.view server handle }
  | some out => if out.response.isSome then out else serve e.cfg w.clock 7 out.replica

def applyMutation (e : Setting) (handle : Handle) (origin : Chunkserver.Origin)
    (request : Chunkserver.ApplyMutationRequest) (now : World × Bool) (secondary : ServerId) :
    World × Bool :=
  let out := now.1.handler e secondary handle origin (.apply request)
  (now.1.keep secondary handle out.replica, now.2 && out.response.any (·.code = .ok))

/-- `Write` and `RecordAppend` at a chunkserver. -/
def mutate (e : Setting) (server : ServerId) (handle : Handle) (op : MutationOp) (w : World) :
    Chunkserver.Response × World :=
  let out := w.handler e server handle ⟨server, w.calls⟩ op
  let w := w.keep server handle out.replica
  match out.response, out.replica.frame with
  | some response, _ => (response, w)
  | none, some ⟨origin, _, .forwarding secondaries request⟩ =>
      let (w, reached) := secondaries.foldl (applyMutation e handle origin request) (w, true)
      (Chunkserver.Replica.afterForward request reached op, w)
  | none, _ => ({ code := .failed }, w)

def push (key : BufferKey) (data : Bytes) (w : World) (replica : Replica) : World :=
  let server := w.servers replica.chunkserverId
  { w with
    servers := Function.update w.servers replica.chunkserverId
      { server with buffer := server.buffer.put key data } }

def read (server : ServerId) (handle : Handle) (version offset length : Nat) (w : World) :
    ResultCode × Bytes :=
  match (w.servers server).entries handle with
  | none => (.noSuchChunk, [])
  | some entry =>
      if entry.version < version then (.staleVersion, [])
      else if entry.data.length < offset then (.outOfRange, [])
      else
        let stop := min (u64 (offset + length)) entry.data.length
        (.ok, (entry.data.drop offset).take (stop - offset))

def getChunkLength (server : ServerId) (handle : Handle) (w : World) : ResultCode × Nat :=
  match (w.servers server).entries handle with
  | none => (.noSuchChunk, 0)
  | some entry => (.ok, entry.data.length)

end World

open World in
def Setting.net (e : Setting) : Net World where
  now w := ((w.tick e).clock, w.tick e)
  getClusterInfo w := ((.ok, e.cfg.chunkSize, e.maxAppend), w.tick e)
  openFile path w := ((w.tick e).openFile e path, w.tick e)
  addChunk path index w := (w.tick e).addChunk e path index
  findLocation path first count w := ((w.tick e).findLocation e path first count, w.tick e)
  findLeaseHolder path index w := (w.tick e).findLeaseHolder e path index
  pushData lease clientId sequence data w :=
    ((.ok, .ok), (lease.primary :: lease.secondaries).foldl (push ⟨clientId, sequence⟩ data) (w.tick e))
  write primary m offset w :=
    let (response, w) := (w.tick e).mutate e primary.chunkserverId m.handle
      (.write m.version offset ⟨m.clientId, m.sequence⟩)
    ((.ok, response.code), w)
  recordAppend primary m w :=
    let (response, w) := (w.tick e).mutate e primary.chunkserverId m.handle
      (.append m.version ⟨m.clientId, m.sequence⟩)
    ((.ok, response.code, response.offset), w)
  read replica handle version offset length w :=
    ((.ok, (w.tick e).read replica.chunkserverId handle version offset length), w.tick e)
  getChunkLength replica handle w :=
    ((.ok, (w.tick e).getChunkLength replica.chunkserverId handle), w.tick e)

end Gfs.Client
