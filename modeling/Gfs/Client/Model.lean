import Gfs.Common.Base

/-!
# `client/gfs_client.cc` and `client/location_cache.h`

One client, used by one thread. Everything outside of it is a `Net`: what the master, the
chunkservers and the clock answer, which may depend on all that has happened before. A loop takes
fuel for its turns and has no result where that runs out. The texts of errors are left out.
-/

namespace Gfs.Client

/-! ## Statuses -/

inductive GrpcCode
  | ok | notFound | alreadyExists | invalidArgument | unavailable | deadlineExceeded | other
deriving DecidableEq, Repr

/-- The values of `ErrorCode` besides `kOk`. -/
inductive ErrorCode
  | notFound | alreadyExists | invalidArgument | unavailable | stale | failed
deriving DecidableEq, Repr

abbrev Status := Except ErrorCode Unit

def fromGrpc : GrpcCode → Status
  | .ok => .ok ()
  | .notFound => .error .notFound
  | .alreadyExists => .error .alreadyExists
  | .invalidArgument => .error .invalidArgument
  | .unavailable | .deadlineExceeded => .error .unavailable
  | .other => .error .failed

def fromResultCode : ResultCode → Status
  | .ok => .ok ()
  | .staleVersion | .notPrimary | .leaseExpired | .noSuchChunk => .error .stale
  | .outOfRange => .error .invalidArgument
  | .noReplicas | .checksumMismatch | .dataMissing => .error .unavailable
  | .retryNextChunk | .failed => .error .failed

def isRetryableLater : ErrorCode → Bool
  | .unavailable | .stale | .failed => true
  | _ => false

/-! ## The world outside -/

structure Replica where
  chunkserverId : ServerId
  address : Str
  rack : Str
deriving DecidableEq

structure ChunkInfo where
  handle : Handle
  version : Nat
  replicas : List Replica
deriving DecidableEq

structure Lease where
  handle : Handle
  version : Nat
  primary : Replica
  secondaries : List Replica
deriving DecidableEq

/-- What a mutation at a primary refers to. -/
structure Mutation where
  handle : Handle
  version : Nat
  clientId : Str
  sequence : Nat
deriving DecidableEq

/-- The answers of the world; `pushData` is the whole stream to the head of the chain. -/
structure Net (ω : Type) where
  now : ω → TimePoint × ω
  getClusterInfo : ω → (GrpcCode × Nat × Nat) × ω
  openFile : Str → ω → (GrpcCode × Nat) × ω
  addChunk : Str → Nat → ω → (GrpcCode × ResultCode) × ω
  findLocation : Str → Nat → Nat → ω → (GrpcCode × List (Nat × ChunkInfo)) × ω
  findLeaseHolder : Str → Nat → ω → (GrpcCode × ResultCode × Lease) × ω
  pushData : Lease → Str → Nat → Bytes → ω → (GrpcCode × ResultCode) × ω
  write : Replica → Mutation → Nat → ω → (GrpcCode × ResultCode) × ω
  recordAppend : Replica → Mutation → ω → (GrpcCode × ResultCode × Nat) × ω
  read : Replica → Handle → Nat → Nat → Nat → ω → (GrpcCode × ResultCode × Bytes) × ω
  getChunkLength : Replica → Handle → ω → (GrpcCode × ResultCode × Nat) × ω

/-! ## The client -/

/-- `ExpiringCache`: the entries with their expiry. -/
abbrev Cache (α : Type) := Str → Nat → Option (α × TimePoint)

namespace Cache
variable {α : Type}

def put (cache : Cache α) (path : Str) (index : Nat) (entry : α × TimePoint) : Cache α :=
  fun path' index' => if path' = path ∧ index' = index then some entry else cache path' index'

def invalidate (cache : Cache α) (path : Str) (index : Nat) : Cache α :=
  fun path' index' => if path' = path ∧ index' = index then none else cache path' index'

end Cache

structure State (ω : Type) where
  world : ω
  clientId : Str := []
  replicaSeed : Nat := 0
  sequence : Nat := 1
  locations : Cache ChunkInfo := fun _ _ => none
  leases : Cache Lease := fun _ _ => none
  infoLoaded : Bool := false
  chunkSize : Nat := 0
  maxAppend : Nat := 0

variable {ω : Type}

namespace State

def ensureClusterInfo (net : Net ω) (c : State ω) : Status × State ω :=
  if c.infoLoaded then (.ok (), c)
  else
    let ((grpc, chunkSize, maxAppend), world) := net.getClusterInfo c.world
    let c := { c with world }
    match fromGrpc grpc with
    | .error code => (.error code, c)
    | .ok () =>
        if chunkSize = 0 then (.error .failed, c)
        else (.ok (), { c with
          chunkSize
          maxAppend := if maxAppend = 0 then chunkSize / 4 else maxAppend
          infoLoaded := true })

def openFile (net : Net ω) (path : Str) (c : State ω) : Except ErrorCode Nat × State ω :=
  let ((grpc, chunkCount), world) := net.openFile path c.world
  (match fromGrpc grpc with
    | .error code => .error code
    | .ok () => .ok chunkCount, { c with world })

/-! ### Caches -/

def getLocation (net : Net ω) (path : Str) (index : Nat) (c : State ω) :
    Option ChunkInfo × State ω :=
  match c.locations path index with
  | none => (none, c)
  | some (chunk, expiry) =>
      let (now, world) := net.now c.world
      if expiry ≤ now then (none, { c with world, locations := c.locations.invalidate path index })
      else (some chunk, { c with world })

def putLocation (net : Net ω) (cfg : Config) (path : Str) (c : State ω)
    (entry : Nat × ChunkInfo) : State ω :=
  let (now, world) := net.now c.world
  { c with
    world
    locations := c.locations.put path entry.1 (entry.2, now + cfg.clientLocationCacheTtl) }

def getLease (net : Net ω) (path : Str) (index : Nat) (c : State ω) : Option Lease × State ω :=
  match c.leases path index with
  | none => (none, c)
  | some (lease, expiry) =>
      let (now, world) := net.now c.world
      if expiry ≤ now then (none, { c with world, leases := c.leases.invalidate path index })
      else (some lease, { c with world })

def putLease (net : Net ω) (cfg : Config) (path : Str) (index : Nat) (lease : Lease)
    (c : State ω) : State ω :=
  let (now, world) := net.now c.world
  { c with
    world
    leases := c.leases.put path index (lease, now + cfg.clientLocationCacheTtl) }

/-! ### Reads -/

/-- `none` is `missing`. -/
def locate (net : Net ω) (cfg : Config) (path : Str) (index : Nat) (c : State ω) :
    Except ErrorCode (Option ChunkInfo) × State ω :=
  match c.getLocation net path index with
  | (some chunk, c) => (.ok (some chunk), c)
  | (none, c) =>
      let ((grpc, chunks), world) := net.findLocation path index 4 c.world
      let c := { c with world }
      match fromGrpc grpc with
      | .error code => (.error code, c)
      | .ok () =>
          (.ok ((chunks.filter fun entry => entry.1 = index).getLast?.map (·.2)),
            chunks.foldl (putLocation net cfg path) c)

/-- The replicas in the order in which they are asked. -/
def rotated (seed : Nat) (replicas : List Replica) : List Replica :=
  (List.range replicas.length).filterMap fun k => replicas[u64 (seed + k) % replicas.length]?

/-- The loop over the replicas in `ReadChunk`: the piece, if one of them has an answer for it. -/
def readReplicas (net : Net ω) (chunk : ChunkInfo) (inChunk want : Nat) :
    List Replica → State ω → Option Bytes × State ω
  | [], c => (none, c)
  | replica :: rest, c =>
      let ((grpc, code, data), world) :=
        net.read replica chunk.handle chunk.version inChunk want c.world
      let c := { c with world }
      match fromGrpc grpc, code with
      | .error _, _ => readReplicas net chunk inChunk want rest c
      | .ok (), .ok => (some data, c)
      | .ok (), .outOfRange => (some [], c)
      | .ok (), _ => readReplicas net chunk inChunk want rest c

/-- The attempts of `ReadChunk`; `none` in the result is `eof`. -/
def readAttempts (net : Net ω) (cfg : Config) (path : Str) (index inChunk want : Nat) :
    Nat → State ω → Except ErrorCode (Option Bytes) × State ω
  | 0, c => (.error .unavailable, c)
  | attempts + 1, c =>
      match c.locate net cfg path index with
      | (.error code, c) => (.error code, c)
      | (.ok none, c) => (.ok none, c)
      | (.ok (some chunk), c) =>
          match c.readReplicas net chunk inChunk want (rotated c.replicaSeed chunk.replicas) with
          | (some piece, c) => (.ok (some piece), c)
          | (none, c) =>
              readAttempts net cfg path index inChunk want attempts
                { c with locations := c.locations.invalidate path index }

def readChunk (net : Net ω) (cfg : Config) (path : Str) (index inChunk want : Nat)
    (c : State ω) : Except ErrorCode (Option Bytes) × State ω :=
  c.readAttempts net cfg path index inChunk want 2

/-- The loop of `Read` from the position on; `data` is what it has so far. -/
def readLoop (net : Net ω) (cfg : Config) (path : Str) (stop : Nat) :
    Nat → Nat → Bytes → State ω → Option (Except ErrorCode Bytes) × State ω
  | fuel, pos, data, c =>
      if stop ≤ pos then (some (.ok data), c)
      else match fuel with
        | 0 => (none, c)
        | fuel + 1 =>
            let want := min (stop - pos) (c.chunkSize - pos % c.chunkSize)
            match c.readChunk net cfg path (pos / c.chunkSize) (pos % c.chunkSize) want with
            | (.error code, c) => (some (.error code), c)
            | (.ok none, c) => (some (.ok data), c)
            | (.ok (some piece), c) =>
                if piece.length < want then (some (.ok (data ++ piece)), c)
                else readLoop net cfg path stop fuel (u64 (pos + piece.length)) (data ++ piece) c

def read (net : Net ω) (cfg : Config) (fuel : Nat) (path : Str) (offset length : Nat)
    (c : State ω) : Option (Except ErrorCode Bytes) × State ω :=
  if length = 0 then (some (.ok []), c)
  else match c.ensureClusterInfo net with
    | (.error code, c) => (some (.error code), c)
    | (.ok (), c) => c.readLoop net cfg path (u64 (offset + length)) fuel offset []

def askLengths (net : Net ω) (handle : Handle) : List Replica → State ω → Option Nat × State ω
  | [], c => (none, c)
  | replica :: rest, c =>
      let ((grpc, code, length), world) := net.getChunkLength replica handle c.world
      let c := { c with world }
      match fromGrpc grpc, code with
      | .ok (), .ok => (some length, c)
      | _, _ => askLengths net handle rest c

def lengthAttempts (net : Net ω) (cfg : Config) (path : Str) (last : Nat) :
    Nat → State ω → Except ErrorCode Nat × State ω
  | 0, c => (.error .unavailable, c)
  | attempts + 1, c =>
      match c.locate net cfg path last with
      | (.error code, c) => (.error code, c)
      | (.ok none, c) => (.ok (u64 (last * c.chunkSize)), c)
      | (.ok (some chunk), c) =>
          match c.askLengths net chunk.handle (rotated c.replicaSeed chunk.replicas) with
          | (some length, c) => (.ok (u64 (last * c.chunkSize + length)), c)
          | (none, c) =>
              lengthAttempts net cfg path last attempts
                { c with locations := c.locations.invalidate path last }

def length (net : Net ω) (cfg : Config) (path : Str) (c : State ω) :
    Except ErrorCode Nat × State ω :=
  match c.ensureClusterInfo net with
  | (.error code, c) => (.error code, c)
  | (.ok (), c) =>
      match c.openFile net path with
      | (.error code, c) => (.error code, c)
      | (.ok chunkCount, c) =>
          if chunkCount = 0 then (.ok 0, c)
          else c.lengthAttempts net cfg path (chunkCount - 1) 2

/-! ### Mutations -/

/-- The loop of `EnsureChunk` from the chunk `next` on. -/
def addChunks (net : Net ω) (path : Str) (index : Nat) :
    Nat → Nat → State ω → Option Status × State ω
  | fuel, next, c =>
      if index < next then (some (.ok ()), c)
      else match fuel with
        | 0 => (none, c)
        | fuel + 1 =>
            let ((grpc, code), world) := net.addChunk path next c.world
            let c := { c with world }
            match fromGrpc grpc, fromResultCode code with
            | .error code, _ => (some (.error code), c)
            | .ok (), .error code => (some (.error code), c)
            | .ok (), .ok () => addChunks net path index fuel (u64 (next + 1)) c

def ensureChunk (net : Net ω) (fuel : Nat) (path : Str) (index : Nat) (c : State ω) :
    Option Status × State ω :=
  match c.openFile net path with
  | (.error code, c) => (some (.error code), c)
  | (.ok chunkCount, c) => c.addChunks net path index fuel chunkCount

def findLease (net : Net ω) (cfg : Config) (path : Str) (index : Nat) (c : State ω) :
    Except ErrorCode (Lease × Bool) × State ω :=
  match c.getLease net path index with
  | (some lease, c) => (.ok (lease, true), c)
  | (none, c) =>
      let ((grpc, code, lease), world) := net.findLeaseHolder path index c.world
      let c := { c with world }
      match fromGrpc grpc, fromResultCode code with
      | .error code, _ => (.error code, c)
      | .ok (), .error code => (.error code, c)
      | .ok (), .ok () => (.ok (lease, false), c.putLease net cfg path index lease)

def pushData (net : Net ω) (lease : Lease) (sequence : Nat) (data : Bytes) (c : State ω) :
    Status × State ω :=
  let ((grpc, code), world) := net.pushData lease c.clientId sequence data c.world
  (if grpc = .ok ∧ code = .ok then .ok () else .error .unavailable, { c with world })

def nextSequence (c : State ω) : State ω := { c with sequence := u64 (c.sequence + 1) }

def mutation (lease : Lease) (sequence : Nat) (c : State ω) : Mutation where
  handle := lease.handle
  version := lease.version
  clientId := c.clientId
  sequence

/-- The loop of `TryWrite`; `last` is the status that it has kept. -/
def tryWriteLoop (net : Net ω) (lease : Lease) (inChunk : Nat) (data : Bytes) :
    Nat → ErrorCode → State ω → Status × State ω
  | 0, last, c => (.error last, c)
  | inner + 1, last, c =>
      let sequence := c.sequence
      match c.nextSequence.pushData net lease sequence data with
      | (.error code, c) => (.error code, c)
      | (.ok (), c) =>
          let ((grpc, code), world) :=
            net.write lease.primary (c.mutation lease sequence) inChunk c.world
          let c := { c with world }
          match fromGrpc grpc, code with
          | .error _, _ => (.error .unavailable, c)
          | .ok (), .dataMissing => tryWriteLoop net lease inChunk data inner .unavailable c
          | .ok (), .failed => tryWriteLoop net lease inChunk data inner .failed c
          | .ok (), code => (fromResultCode code, c)

def tryWrite (net : Net ω) (cfg : Config) (lease : Lease) (inChunk : Nat) (data : Bytes)
    (c : State ω) : Status × State ω :=
  c.tryWriteLoop net lease inChunk data (max cfg.mutationRetryInner 1) .failed

end State

/-- The result of `TryAppend`: the offset, `next_chunk` or another status. -/
inductive Attempt
  | appended (offset : Nat)
  | nextChunk
  | failed (code : ErrorCode)
deriving DecidableEq

namespace State

def tryAppendLoop (net : Net ω) (lease : Lease) (data : Bytes) :
    Nat → ErrorCode → State ω → Attempt × State ω
  | 0, last, c => (.failed last, c)
  | inner + 1, last, c =>
      let sequence := c.sequence
      match c.nextSequence.pushData net lease sequence data with
      | (.error code, c) => (.failed code, c)
      | (.ok (), c) =>
          let ((grpc, code, offset), world) :=
            net.recordAppend lease.primary (c.mutation lease sequence) c.world
          let c := { c with world }
          match fromGrpc grpc, code with
          | .error _, _ => (.failed .unavailable, c)
          | .ok (), .ok => (.appended offset, c)
          | .ok (), .retryNextChunk => (.nextChunk, c)
          | .ok (), .dataMissing => tryAppendLoop net lease data inner .unavailable c
          | .ok (), .failed => tryAppendLoop net lease data inner .failed c
          | .ok (), code =>
              match fromResultCode code with
              | .error code => (.failed code, c)
              | .ok () => (.failed .failed, c)

def tryAppend (net : Net ω) (cfg : Config) (lease : Lease) (data : Bytes) (c : State ω) :
    Attempt × State ω :=
  c.tryAppendLoop net lease data (max cfg.mutationRetryInner 1) .failed

end State

/-! ### The retry loops -/

/-- A value of `int`, as `static_cast<int>` and `++` give it. -/
def int32 (n : Int) : Int := (n + 2 ^ 31) % 2 ^ 32 - 2 ^ 31

/-- The variables of the loops of `WriteChunk` and `RecordAppend`. -/
structure Retry where
  index : Nat
  outer : Int := 0
  ensured : Bool := false
  last : ErrorCode := .failed

/-- A turn of such a loop returns, or the loop goes on. -/
inductive Turn (α : Type)
  | done (result : Except ErrorCode α)
  | again (r : Retry)

/-- The turn is over, with a count for `outer`. -/
def Retry.later (r : Retry) (code : ErrorCode) : Retry :=
  { r with last := code, outer := int32 (r.outer + 1) }

namespace State

/-- The first half of a turn, up to the lease. -/
def leaseTurn {α : Type} (net : Net ω) (cfg : Config) (fuel : Nat) (path : Str) (r : Retry)
    (c : State ω) : Option (Turn α ⊕ Lease × Bool) × State ω :=
  match c.findLease net cfg path r.index with
  | (.ok found, c) => (some (.inr found), c)
  | (.error code, c) =>
      if code = .notFound ∧ !r.ensured then
        match c.ensureChunk net fuel path r.index with
        | (none, c) => (none, c)
        | (some (.error .notFound), c) => (some (.inl (.done (.error .notFound))), c)
        | (some (.error .invalidArgument), c) => (some (.inl (.done (.error .invalidArgument))), c)
        | (some _, c) => (some (.inl (.again { r with ensured := true })), c)
      else if isRetryableLater code then (some (.inl (.again (r.later code))), c)
      else (some (.inl (.done (.error code))), c)

/-- The end of a turn whose attempt has failed. -/
def failedTurn {α : Type} (path : Str) (r : Retry) (fromCache : Bool) (code : ErrorCode)
    (c : State ω) : Turn α × State ω :=
  if code = .invalidArgument then (.done (.error code), c)
  else
    let c := { c with leases := c.leases.invalidate path r.index }
    if fromCache then (.again { r with last := code }, c) else (.again (r.later code), c)

def writeTurn (net : Net ω) (cfg : Config) (fuel : Nat) (path : Str) (inChunk : Nat) (data : Bytes)
    (r : Retry) (c : State ω) : Option (Turn Unit) × State ω :=
  match c.leaseTurn net cfg fuel path r with
  | (none, c) => (none, c)
  | (some (.inl turn), c) => (some turn, c)
  | (some (.inr (lease, fromCache)), c) =>
      match c.tryWrite net cfg lease inChunk data with
      | (.ok (), c) => (some (.done (.ok ())), c)
      | (.error code, c) =>
          let (turn, c) := c.failedTurn path r fromCache code
          (some turn, c)

def appendTurn (net : Net ω) (cfg : Config) (fuel : Nat) (path : Str) (data : Bytes)
    (r : Retry) (c : State ω) : Option (Turn Nat) × State ω :=
  match c.leaseTurn net cfg fuel path r with
  | (none, c) => (none, c)
  | (some (.inl turn), c) => (some turn, c)
  | (some (.inr (lease, fromCache)), c) =>
      match c.tryAppend net cfg lease data with
      | (.appended offset, c) => (some (.done (.ok (u64 (r.index * c.chunkSize + offset)))), c)
      | (.nextChunk, c) =>
          match c.ensureChunk net fuel path (u64 (r.index + 1)) with
          | (none, c) => (none, c)
          | (some (.ok ()), c) =>
              (some (.again { r with index := u64 (r.index + 1), outer := 0, ensured := true }), c)
          | (some (.error code), c) =>
              if isRetryableLater code then (some (.again r), c)
              else (some (.done (.error code)), c)
      | (.failed code, c) =>
          let (turn, c) := c.failedTurn path r fromCache code
          (some turn, c)

/-- The `while` of both: as long as `outer` is not above `mutation_retry_outer`. -/
def retryLoop {α : Type} (cfg : Config) (turn : Retry → State ω → Option (Turn α) × State ω) :
    Nat → Retry → State ω → Option (Except ErrorCode α) × State ω
  | fuel, r, c =>
      if int32 cfg.mutationRetryOuter < r.outer then (some (.error r.last), c)
      else match fuel with
        | 0 => (none, c)
        | fuel + 1 =>
            match turn r c with
            | (none, c) => (none, c)
            | (some (.done result), c) => (some result, c)
            | (some (.again r), c) => retryLoop cfg turn fuel r c

def writeChunk (net : Net ω) (cfg : Config) (fuel : Nat) (path : Str) (index inChunk : Nat)
    (data : Bytes) (c : State ω) : Option Status × State ω :=
  retryLoop cfg (writeTurn net cfg fuel path inChunk data) fuel { index } c

/-- The loop of `Write` from the position on. -/
def writeLoop (net : Net ω) (cfg : Config) (path : Str) (offset : Nat) (data : Bytes)
    (turns : Nat) : Nat → Nat → State ω → Option Status × State ω
  | fuel, pos, c =>
      if data.length ≤ pos then (some (.ok ()), c)
      else match fuel with
        | 0 => (none, c)
        | fuel + 1 =>
            let absolute := u64 (offset + pos)
            let inChunk := absolute % c.chunkSize
            let len := min (data.length - pos) (c.chunkSize - inChunk)
            match c.writeChunk net cfg turns path (absolute / c.chunkSize) inChunk
                ((data.drop pos).take len) with
            | (none, c) => (none, c)
            | (some (.error code), c) => (some (.error code), c)
            | (some (.ok ()), c) => writeLoop net cfg path offset data turns fuel (pos + len) c

def write (net : Net ω) (cfg : Config) (fuel : Nat) (path : Str) (offset : Nat) (data : Bytes)
    (c : State ω) : Option Status × State ω :=
  if data = [] then (some (.ok ()), c)
  else match c.ensureClusterInfo net with
    | (.error code, c) => (some (.error code), c)
    | (.ok (), c) => c.writeLoop net cfg path offset data fuel fuel 0

def recordAppend (net : Net ω) (cfg : Config) (fuel : Nat) (path : Str) (data : Bytes)
    (c : State ω) : Option (Except ErrorCode Nat) × State ω :=
  match c.ensureClusterInfo net with
  | (.error code, c) => (some (.error code), c)
  | (.ok (), c) =>
      if c.maxAppend < data.length then (some (.error .invalidArgument), c)
      else match c.openFile net path with
        | (.error code, c) => (some (.error code), c)
        | (.ok chunkCount, c) =>
            let turn := appendTurn net cfg fuel path data
            if chunkCount = 0 then
              match c.ensureChunk net fuel path 0 with
              | (none, c) => (none, c)
              | (some (.error code), c) => (some (.error code), c)
              | (some (.ok ()), c) => retryLoop cfg turn fuel { index := 0 } c
            else retryLoop cfg turn fuel { index := chunkCount - 1 } c

end State

end Gfs.Client
