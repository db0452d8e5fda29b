import Gfs.Lib.Transition
import Gfs.Master.HeartBeat
import Gfs.Master.Tree

/-!
# The master: its calls in progress and their sections

The state of a `Master` between two sections under the state mutex. A call that waits for path locks
has not begun; a call in progress holds the whole set that it acquired. A step is one section with
what is read around it (a clock, the answers of chunkservers). `restart` ends the process at any
moment; what is recovered is a prefix of the log that has everything that was flushed.
-/

namespace Gfs.Master
open Lib.Transition LockTable

structure ChunkserverInfo where
  lastHeartbeat : TimePoint
  alive : Bool
deriving DecidableEq

/-! ## Calls in progress -/

inductive MoveKind
  | rename | snapshot
deriving DecidableEq

/-- A `Rename` or a `Snapshot` that has validated its paths; `revoking` is a `Revoke` whose
`RevokeLease` is under way. -/
structure Move where
  kind : MoveKind
  source : Str
  target : Str
  handles : List Handle
  todo : List Handle
  revoking : Option (Handle × Lease) := none
  unreachable : List ServerId := []
  waitUntil : TimePoint

/-- `seq` is what a call waits for in `WaitFlushed`. -/
inductive FindPhase
  | attempt
  | copyOnWrite (old : Handle)
  | alloc (old : Handle) (holders : List ServerId)
  | copying (old fresh : Handle) (holders : List ServerId) (seq : Nat)
  | copied (fresh : Handle) (seq : Nat)
  | decide (handle : Handle)
  | parked (until_ : TimePoint)
  | queued (handle : Handle)
  | granting (handle : Handle)
  | granted (handle : Handle)
deriving DecidableEq

/-- A `FindLeaseHolder`. -/
structure Find where
  path : Str
  index : Nat
  phase : FindPhase := .attempt
deriving DecidableEq

inductive AddPhase
  | alloc
  | creating (handle : Handle) (seq : Nat)
deriving DecidableEq

/-- `flushing` has only its `WaitFlushed` left; `gc` has these expired files left to remove. -/
inductive Task
  | move (m : Move)
  | find (f : Find)
  | add (path : Str) (index : Nat) (phase : AddPhase)
  | flushing (locks : List LockRequest) (seq : Nat)
  | beat (server : ServerId) (time : TimePoint)
  | sweep (time : TimePoint) (dead : List ServerId)
  | gc (expired : List Str) (lastSeq : Nat)

def Task.locks : Task → List LockRequest
  | .move m => normalize (forPaths m.source .write m.target .write)
  | .find f => normalize (forPath f.path .read)
  | .add path _ _ => normalize (forPath path .write)
  | .flushing locks _ => locks
  | .beat .. | .sweep .. | .gc .. => []

/-- The chunk that the call is about to give to a file. -/
def Task.creating : Task → Option Handle
  | .find { phase := .copying _ fresh .., .. } => some fresh
  | .add _ _ (.creating handle _) => some handle
  | _ => none

/-- The call holds `cow_mutex_`. -/
def Task.holdsCow : Task → Bool
  | .find f => match f.phase with
    | .alloc .. | .copying .. | .copied .. => true
    | _ => false
  | _ => false

/-- `checking` is a `Regrant` before its `IsValid`; `clearing` is about to run `clear_granting`. -/
inductive GrantStage
  | checking
  | preparing (round : Nat)
  | waiting (round : Nat) (attempt : Attempt)
  | clearing
  | returning (ok : Bool) (seq : Nat)
deriving DecidableEq

/-- The `GrantSerialized` of a handle in `busy_`, for a `FindLeaseHolder` or for `Regrant`. -/
structure GrantCall where
  client : Option Nat
  stage : GrantStage
deriving DecidableEq

/-- An answer of `FindLeaseHolder` with code `OK`. -/
structure LeaseAnswer where
  path : Str
  index : Nat
  handle : Handle
deriving DecidableEq

/-- `requests` are the regrants that a handler is about to request, `regrants` is
`regrant_pending_`; `answer` is what the last step answered. -/
structure Live where
  state : MasterState := {}
  log : List LogRecord := []
  flushed : Nat := 0
  now : TimePoint := 0
  registry : Std.ExtTreeMap ServerId ChunkserverInfo := ∅
  calls : Std.ExtTreeMap Nat Task := ∅
  grants : Std.ExtTreeMap Handle GrantCall := ∅
  requests : List Handle := []
  regrants : List Handle := []
  answer : Option LeaseAnswer := none

namespace Live

/-- `registry_.Resolve(id)` has a value. -/
def resolves (s : Live) (server : ServerId) : Bool := (s.registry[server]?).any (·.alive)

def setCall (s : Live) (id : Nat) (task : Task) : Live :=
  { s with calls := s.calls.insert id task }

def endCall (s : Live) (id : Nat) : Live := { s with calls := s.calls.erase id }

def setChunk (s : Live) (handle : Handle) (m : ChunkMeta) : Live :=
  { s with state := { s.state with chunks := s.state.chunks.insert handle m } }

def setGrant (s : Live) (handle : Handle) (g : GrantCall) : Live :=
  { s with grants := s.grants.insert handle g }

/-- The record that goes with the section's change of the state. -/
def write (s : Live) (state : MasterState) (record : LogRecord) : Live :=
  { s with state, log := s.log ++ [record] }

def seq (s : Live) : Nat := s.log.length

/-- `Acquire` does not wait. -/
def isFree (s : Live) (locks : List LockRequest) : Bool :=
  s.calls.toList.all fun entry => compatible entry.2.locks locks

def begin (s : Live) (id : Nat) (locks : List LockRequest) (body : Live) : Option Live :=
  if !s.calls.contains id && s.isFree locks then some body else none

def checkPath (path : Str) : Bool := isValidPath path && path ≠ ['/']

def isOpen (s : Live) (path : Str) : Bool :=
  !(s.state.files.contains path || s.state.files.isDirectory path) &&
    !s.state.files.hasFileAncestor path

/-! ## `Create` and `Remove` -/

def create (s : Live) (id : Nat) (path : Str) : Option Live :=
  if !checkPath path then some s
  else
    let locks := normalize (forPath path .write)
    s.begin id locks <|
      if s.isOpen path then
        let s := s.write (s.state.applyCreate path) (.create path)
        s.setCall id (.flushing locks s.seq)
      else s

def remove (s : Live) (id : Nat) (path : Str) (unixSeconds : Int) : Option Live :=
  if !checkPath path then some s
  else
    let locks := normalize (forPath path .write)
    s.begin id locks <|
      if !s.state.files.contains path then s
      else if isHiddenPath path then
        let s := s.write (s.state.applyRemove path) (.remove path)
        s.setCall id (.flushing locks s.seq)
      else
        let hidden := s.state.files.freshHiddenName path unixSeconds
        let s := s.write (s.state.applyRename path hidden) (.rename path hidden)
        s.setCall id (.flushing locks s.seq)

/-! ## `Rename` and `Snapshot` -/

/-- The handles to revoke: `Snapshot` collects them in a set and passes over hidden files. -/
def handlesOf (s : Live) (kind : MoveKind) (source : Str) : List Handle :=
  match kind with
  | .rename => (s.state.files.subtree source false).flatMap (·.2.chunks)
  | .snapshot =>
      ((s.state.files.subtree source true).flatMap (·.2.chunks)).dedup.insertionSort (· ≤ ·)

def move (s : Live) (id : Nat) (kind : MoveKind) (source target : Str) : Option Live :=
  if !checkPath source || !checkPath target || source = target ||
      isAncestorOrSelf source target then some s
  else
    s.begin id (normalize (forPaths source .write target .write)) <|
      if (s.state.files.contains source || s.state.files.isDirectory source) && s.isOpen target then
        let handles := s.handlesOf kind source
        s.setCall id (.move { kind, source, target, handles, todo := handles, waitUntil := s.now })
      else s

/-- `RevokeLeasesOn` turns to the next handle: the first section of `Revoke`. -/
def revoke (cfg : Config) (s : Live) (id : Nat) : Option Live :=
  match s.calls[id]? with
  | some (.move m) =>
      match m.todo, m.revoking with
      | handle :: todo, none =>
          match s.state.chunks[handle]? with
          | none => some (s.setCall id (.move { m with todo }))
          | some chunk =>
              let (lease, chunk) := chunk.revokeLocked cfg s.now
              let revoking := lease.map (handle, ·)
              some ((s.setChunk handle chunk).setCall id (.move { m with todo, revoking }))
      | _, _ => none
  | _ => none

/-- The end of `Revoke`; `ok` is the reply to `RevokeLease`. -/
def revoked (cfg : Config) (s : Live) (id : Nat) (ok : Bool) : Option Live :=
  match s.calls[id]? with
  | some (.move m) =>
      match m.revoking with
      | some (handle, lease) =>
          if ok && m.unreachable.contains lease.primary then none
          else
            let unreachable := if ok then m.unreachable else lease.primary :: m.unreachable
            let result := s.state.chunks[handle]?.map (·.revokeAcked lease.primary)
            let acked := ok && (result.map (·.1)).getD false
            let s := match result with
              | some (_, chunk) => if ok then s.setChunk handle chunk else s
              | none => s
            let waitUntil := if acked then m.waitUntil
              else max m.waitUntil (ChunkMeta.waitUntil cfg lease)
            some (s.setCall id (.move { m with revoking := none, unreachable, waitUntil }))
      | none => none
  | _ => none

/-- The loop body over the handles in `SnapshotFinish`. -/
def resetInvalid (cfg : Config) (now : TimePoint) (chunks : ChunkTable) (handle : Handle) :
    ChunkTable :=
  chunks.modify handle fun m =>
    if m.lease.isSome && !m.isValid cfg now then { m with lease := none } else m

/-- The last section of `Rename`, or `SnapshotFinish`. -/
def finish (cfg : Config) (s : Live) (id : Nat) : Option Live :=
  match s.calls[id]? with
  | some (.move m) =>
      if m.todo.isEmpty && m.revoking.isNone then
        let locks := (Task.move m).locks
        match m.kind with
        | .rename =>
            let s := s.write (s.state.applyRename m.source m.target) (.rename m.source m.target)
            some (s.setCall id (.flushing locks s.seq))
        | .snapshot =>
            if s.now < m.waitUntil then none
            else
              let chunks := m.handles.foldl (resetInvalid cfg s.now) s.state.chunks
              let s := s.write ({ s.state with chunks }.applySnapshot m.source m.target)
                (.snapshot m.source m.target)
              some (s.setCall id (.flushing locks s.seq))
      else none
  | _ => none

/-! ## `FindLeaseHolder` -/

def findLeaseHolder (s : Live) (id : Nat) (path : Str) (index : Nat) : Option Live :=
  if !checkPath path then some s
  else s.begin id (normalize (forPath path .read)) (s.setCall id (.find { path, index }))

def position (s : Live) (path : Str) (index : Nat) : Option Handle :=
  s.state.files[path]?.bind (·.chunks[index]?)

def attempt (s : Live) (id : Nat) : Option Live :=
  match s.calls[id]? with
  | some (.find f) =>
      if f.phase = .attempt then
        match s.position f.path f.index with
        | none => some (s.endCall id)
        | some handle =>
            match s.state.chunks[handle]? with
            | none => some (s.endCall id)
            | some m =>
                let phase := if 1 < m.refcount then .copyOnWrite handle else .decide handle
                some (s.setCall id (.find { f with phase }))
      else none
  | _ => none

/-- `CopyOnWrite` has returned this handle, 0 for none. -/
def copiedTo (s : Live) (id : Nat) (f : Find) (handle : Handle) : Live :=
  if handle = 0 then s.endCall id else s.setCall id (.find { f with phase := .decide handle })

def copyOnWrite (s : Live) (id : Nat) : Option Live :=
  match s.calls[id]? with
  | some (.find f) =>
      match f.phase with
      | .copyOnWrite old =>
          if s.calls.toList.any fun entry => entry.2.holdsCow then none
          else
            match s.position f.path f.index with
            | none => some (s.endCall id)
            | some handle =>
                if handle ≠ old then some (s.copiedTo id f handle)
                else
                  match s.state.chunks[old]? with
                  | none => some (s.endCall id)
                  | some m =>
                      if m.refcount ≤ 1 then some (s.copiedTo id f old)
                      else some (s.setCall id (.find { f with phase := .alloc old (m.live s.resolves) }))
      | _ => none
  | _ => none

def allocHandle (s : Live) : Live :=
  let handle := s.state.nextHandle
  let state := s.state.applyAllocHandle handle
  let chunks := (state.chunks.create handle 1).modify handle fun m => { m with pending := true }
  s.write { state with chunks } (.allocHandle handle)

def alloc (s : Live) (id : Nat) : Option Live :=
  let fresh := s.state.nextHandle
  match s.calls[id]? with
  | some (.find f) =>
      match f.phase with
      | .alloc old holders =>
          let s := s.allocHandle
          some (s.setCall id (.find { f with phase := .copying old fresh holders s.seq }))
      | _ => none
  | some (.add path index .alloc) =>
      let s := s.allocHandle
      some (s.setCall id (.add path index (.creating fresh s.seq)))
  | _ => none

def enough (cfg : Config) (ok : List ServerId) : Bool :=
  decide (cfg.minReplicasForWrite ≤ ok.length) && !ok.isEmpty

def addLocations (chunks : ChunkTable) (handle : Handle) (ok : List ServerId) (t : TimePoint) :
    ChunkTable :=
  ok.foldl (fun chunks server => chunks.modify handle (·.addLocation server t)) chunks

def abandon (s : Live) (handle : Handle) : Live :=
  { s with state := { s.state with chunks := s.state.chunks.erase handle } }

/-- The last section of `CopyOnWrite`; `ok` are the chunkservers that have made the copy. -/
def endCopy (cfg : Config) (s : Live) (id : Nat) (ok : List ServerId) : Option Live :=
  match s.calls[id]? with
  | some (.find f) =>
      match f.phase with
      | .copying _ fresh holders seq =>
          if seq ≤ s.flushed ∧ ok.Nodup ∧ ∀ server ∈ ok, server ∈ holders then
            if enough cfg ok then
              let chunks := addLocations s.state.chunks fresh ok s.now
              let s := s.write ({ s.state with chunks }.applyReplaceChunk f.path f.index fresh)
                (.replaceChunk f.path f.index fresh)
              some (s.setCall id (.find { f with phase := .copied fresh s.seq }))
            else some ((s.abandon fresh).endCall id)
          else none
      | _ => none
  | _ => none

def copied (s : Live) (id : Nat) : Option Live :=
  match s.calls[id]? with
  | some (.find f) =>
      match f.phase with
      | .copied fresh seq => if seq ≤ s.flushed then some (s.copiedTo id f fresh) else none
      | _ => none
  | _ => none

/-- The second section of `FindLeaseHolderAttempt`. -/
def decideLease (cfg : Config) (s : Live) (id : Nat) : Option Live :=
  match s.calls[id]? with
  | some (.find f) =>
      match f.phase with
      | .decide handle =>
          match s.state.chunks[handle]? with
          | none => some (s.endCall id)
          | some m =>
              if m.isValid cfg s.now then
                some { s.endCall id with answer := some ⟨f.path, f.index, handle⟩ }
              else
                match m.lease with
                | none => some (s.setCall id (.find { f with phase := .queued handle }))
                | some l =>
                    if m.isPendingExpiry cfg s.now then
                      some (s.setCall id (.find { f with phase := .parked (ChunkMeta.waitUntil cfg l) }))
                    else
                      some ((s.setChunk handle { m with lease := none }).setCall id
                        (.find { f with phase := .queued handle }))
      | _ => none
  | _ => none

/-- The timer runs `FindLeaseHolderAttempt` again. -/
def wake (s : Live) (id : Nat) : Option Live :=
  match s.calls[id]? with
  | some (.find f) =>
      match f.phase with
      | .parked until_ =>
          if s.now < until_ then none else some (s.setCall id (.find { f with phase := .attempt }))
      | _ => none
  | _ => none

def grant (s : Live) (id : Nat) : Option Live :=
  match s.calls[id]? with
  | some (.find f) =>
      match f.phase with
      | .queued handle =>
          if s.grants.contains handle then none
          else some ((s.setGrant handle ⟨some id, .preparing 0⟩).setCall id
            (.find { f with phase := .granting handle }))
      | _ => none
  | _ => none

/-- `FindLeaseHolder` answers with the result of `Grant`. -/
def respond (s : Live) (id : Nat) : Option Live :=
  match s.calls[id]? with
  | some (.find f) =>
      match f.phase with
      | .granted handle => some { s.endCall id with answer := some ⟨f.path, f.index, handle⟩ }
      | _ => none
  | _ => none

/-! ## `GrantSerialized` and `Regrant` -/

def requestRegrant (s : Live) (handle : Handle) : Option Live :=
  if handle ∈ s.requests then
    some { s with
      requests := s.requests.erase handle
      regrants := if handle ∈ s.regrants then s.regrants else handle :: s.regrants }
  else none

def regrant (s : Live) (handle : Handle) : Option Live :=
  if handle ∈ s.regrants ∧ ¬ s.grants.contains handle then
    some ({ s with regrants := s.regrants.erase handle }.setGrant handle ⟨none, .checking⟩)
  else none

/-- `Regrant` looks whether it is needed. -/
def recheck (cfg : Config) (s : Live) (handle : Handle) : Option Live :=
  match s.grants[handle]? with
  | some ⟨client, .checking⟩ =>
      let needed := (s.state.chunks[handle]?).any (·.isValid cfg s.now)
      some (s.setGrant handle ⟨client, if needed then .preparing 0 else .returning false 0⟩)
  | _ => none

def prepare (cfg : Config) (s : Live) (handle : Handle) : Option Live :=
  match s.grants[handle]? with
  | some ⟨client, .preparing round⟩ =>
      match s.state.chunks[handle]?.bind (·.prepareLocked cfg s.resolves) with
      | none => some (s.setGrant handle ⟨client, .clearing⟩)
      | some (attempt, m) =>
          some ((s.setChunk handle m).setGrant handle ⟨client, .waiting round attempt⟩)
  | _ => none

/-- The last section of a round; `failed` are the chunkservers that did not acknowledge. -/
def settle (cfg : Config) (s : Live) (handle : Handle) (failed : List ServerId) : Option Live :=
  match s.grants[handle]? with
  | some ⟨client, .waiting round attempt⟩ =>
      if ∀ server ∈ failed, server ∈ attempt.primary :: attempt.secondaries then
        match s.state.chunks[handle]? with
        | none => some (s.setGrant handle ⟨client, .returning false 0⟩)
        | some m =>
            if failed.isEmpty then
              let m := m.commit cfg s.now attempt
              let s := (s.setChunk handle m)
              let s := s.write s.state (.bumpVersion handle m.version)
              some (s.setGrant handle ⟨client, .returning true s.seq⟩)
            else
              let m := failed.foldl ChunkMeta.removeLocation m
              let stage := if round + 1 < 8 then .preparing (round + 1) else .clearing
              some ((s.setChunk handle m).setGrant handle ⟨client, stage⟩)
      else none
  | _ => none

def clear (s : Live) (handle : Handle) : Option Live :=
  match s.grants[handle]? with
  | some ⟨client, .clearing⟩ =>
      let s := match s.state.chunks[handle]? with
        | some m => s.setChunk handle { m with granting := false }
        | none => s
      some (s.setGrant handle ⟨client, .returning false 0⟩)
  | _ => none

def granted (s : Live) (id : Nat) (ok : Bool) : Live :=
  match s.calls[id]? with
  | some (.find f) =>
      match f.phase with
      | .granting handle =>
          if ok then s.setCall id (.find { f with phase := .granted handle }) else s.endCall id
      | _ => s
  | _ => s

def endGrant (s : Live) (handle : Handle) : Option Live :=
  match s.grants[handle]? with
  | some ⟨client, .returning ok seq⟩ =>
      if seq ≤ s.flushed then
        let s := { s with grants := s.grants.erase handle }
        match client with
        | some id => some (s.granted id ok)
        | none => some s
      else none
  | _ => none

/-! ## `AddChunk` -/

def addChunk (s : Live) (id : Nat) (path : Str) (index : Nat) : Option Live :=
  if !checkPath path then some s
  else
    s.begin id (normalize (forPath path .write)) <|
      match s.state.files[path]? with
      | some file =>
          if index = file.chunks.length then s.setCall id (.add path index .alloc) else s
      | none => s

/-- The last section of `AddChunk`; `ok` are the chunkservers that have created the chunk. -/
def endAdd (cfg : Config) (s : Live) (id : Nat) (ok : List ServerId) : Option Live :=
  match s.calls[id]? with
  | some (.add path index (.creating handle seq)) =>
      if seq ≤ s.flushed ∧ ok.Nodup ∧ ∀ server ∈ ok, server ∈ s.registry then
        if enough cfg ok then
          let chunks := addLocations s.state.chunks handle ok s.now
          let s := s.write ({ s.state with chunks }.applyAddChunk path index handle)
            (.addChunk path index handle)
          some (s.setCall id (.flushing (normalize (forPath path .write)) s.seq))
        else some ((s.abandon handle).endCall id)
      else none
  | _ => none

/-! ## Heartbeats and sweeps -/

/-- `HeartBeat` begins: `registry_.Touch`. -/
def touch (s : Live) (id : Nat) (server : ServerId) : Option Live :=
  s.begin id [] <|
    { s with registry := s.registry.insert server ⟨s.now, true⟩ }.setCall id (.beat server s.now)

def hear (cfg : Config) (s : Live) (id : Nat) (req : HeartBeatRequest) : Option Live :=
  match s.calls[id]? with
  | some (.beat server time) =>
      let heard := s.state.chunks.heartBeat cfg time server req
      some ({ s with
        state := { s.state with chunks := heard.chunks }
        log := s.log ++ heard.records
        requests := s.requests ++ heard.regrants }.endCall id)
  | _ => none

/-- `SweepDead` begins: `registry_.Sweep`. -/
def sweep (cfg : Config) (s : Live) (id : Nat) : Option Live :=
  let dead := (s.registry.toList.filter fun entry =>
    entry.2.alive && cfg.chunkserverDeadTimeout < s.now - entry.2.lastHeartbeat).map (·.1)
  s.begin id [] <|
    let registry := dead.foldl (fun registry server =>
      registry.modify server fun info => { info with alive := false }) s.registry
    { s with registry }.setCall id (.sweep s.now dead)

def sweepDead (cfg : Config) (s : Live) (id : Nat) : Option Live :=
  match s.calls[id]? with
  | some (.sweep time dead) =>
      let (chunks, regrants) := s.state.chunks.sweepDead cfg time dead
      some ({ s with
        state := { s.state with chunks }
        requests := s.requests ++ regrants }.endCall id)
  | _ => none

/-! ## `GcPass` -/

def isExpired (cfg : Config) (unixSeconds : Int) (path : Str) : Bool :=
  match parseHiddenName path with
  | some (stamp, _) =>
      decide (int64 (stamp + cfg.deletedFileRetention.tdiv (millis 1000)) ≤ unixSeconds)
  | none => false

def gcPass (cfg : Config) (s : Live) (id : Nat) (unixSeconds : Int) : Option Live :=
  s.begin id [] <|
    s.setCall id (.gc (s.state.files.keys.filter (isExpired cfg unixSeconds)) 0)

def gcRemove (s : Live) (id : Nat) : Option Live :=
  match s.calls[id]? with
  | some (.gc (path :: expired) lastSeq) =>
      if s.isFree (normalize (forPath path .write)) then
        if s.state.files.contains path then
          let s := s.write (s.state.applyRemove path) (.remove path)
          some (s.setCall id (.gc expired s.seq))
        else some (s.setCall id (.gc expired lastSeq))
      else none
  | _ => none

def orphans (s : Live) : List Handle :=
  let referenced := s.state.files.toList.flatMap fun entry => entry.2.chunks
  (s.state.chunks.toList.filter fun entry =>
    !entry.2.pending && !referenced.contains entry.1).map (·.1)

/-- The last section of `GcPass`. -/
def gcDrop (s : Live) (id : Nat) : Option Live :=
  match s.calls[id]? with
  | some (.gc [] lastSeq) =>
      let orphans := s.orphans
      let s' := { s with
        state := orphans.foldl MasterState.applyDropChunk s.state
        log := s.log ++ orphans.map LogRecord.dropChunk }
      some (s'.setCall id (.flushing [] (if orphans.isEmpty then lastSeq else s'.seq)))
  | _ => none

/-! ## The clock, the log and the process -/

def advance (s : Live) (passed : Duration) : Option Live :=
  if 0 ≤ passed then some { s with now := s.now + passed } else none

/-- The flusher has written this many records. -/
def flush (s : Live) (count : Nat) : Option Live :=
  if s.flushed ≤ count ∧ count ≤ s.log.length then some { s with flushed := count } else none

/-- `WaitFlushed` returns and the call is over. -/
def done (s : Live) (id : Nat) : Option Live :=
  match s.calls[id]? with
  | some (.flushing _ seq) => if seq ≤ s.flushed then some (s.endCall id) else none
  | _ => none

/-- The process ends and `Recover` finds the first `kept` records. -/
def restart (s : Live) (kept : Nat) : Option Live :=
  if s.flushed ≤ kept ∧ kept ≤ s.log.length then
    some {
      state := (({} : MasterState).replay (s.log.take kept)).recomputeRefcounts
      log := s.log.take kept
      flushed := kept
      now := s.now }
  else none

end Live

inductive Action
  | create (id : Nat) (path : Str)
  | remove (id : Nat) (path : Str) (unixSeconds : Int)
  | move (id : Nat) (kind : MoveKind) (source target : Str)
  | revoke (id : Nat)
  | revoked (id : Nat) (ok : Bool)
  | finish (id : Nat)
  | findLeaseHolder (id : Nat) (path : Str) (index : Nat)
  | attempt (id : Nat)
  | copyOnWrite (id : Nat)
  | alloc (id : Nat)
  | endCopy (id : Nat) (ok : List ServerId)
  | copied (id : Nat)
  | decideLease (id : Nat)
  | wake (id : Nat)
  | grant (id : Nat)
  | respond (id : Nat)
  | requestRegrant (handle : Handle)
  | regrant (handle : Handle)
  | recheck (handle : Handle)
  | prepare (handle : Handle)
  | settle (handle : Handle) (failed : List ServerId)
  | clear (handle : Handle)
  | endGrant (handle : Handle)
  | addChunk (id : Nat) (path : Str) (index : Nat)
  | endAdd (id : Nat) (ok : List ServerId)
  | touch (id : Nat) (server : ServerId)
  | hear (id : Nat) (req : HeartBeatRequest)
  | sweep (id : Nat)
  | sweepDead (id : Nat)
  | gcPass (id : Nat) (unixSeconds : Int)
  | gcRemove (id : Nat)
  | gcDrop (id : Nat)
  | advance (passed : Duration)
  | flush (count : Nat)
  | done (id : Nat)
  | restart (kept : Nat)

namespace Live

def act (cfg : Config) (s : Live) : Action → Option Live
  | .create id path => s.create id path
  | .remove id path unixSeconds => s.remove id path unixSeconds
  | .move id kind source target => s.move id kind source target
  | .revoke id => s.revoke cfg id
  | .revoked id ok => s.revoked cfg id ok
  | .finish id => s.finish cfg id
  | .findLeaseHolder id path index => s.findLeaseHolder id path index
  | .attempt id => s.attempt id
  | .copyOnWrite id => s.copyOnWrite id
  | .alloc id => s.alloc id
  | .endCopy id ok => s.endCopy cfg id ok
  | .copied id => s.copied id
  | .decideLease id => s.decideLease cfg id
  | .wake id => s.wake id
  | .grant id => s.grant id
  | .respond id => s.respond id
  | .requestRegrant handle => s.requestRegrant handle
  | .regrant handle => s.regrant handle
  | .recheck handle => s.recheck cfg handle
  | .prepare handle => s.prepare cfg handle
  | .settle handle failed => s.settle cfg handle failed
  | .clear handle => s.clear handle
  | .endGrant handle => s.endGrant handle
  | .addChunk id path index => s.addChunk id path index
  | .endAdd id ok => s.endAdd cfg id ok
  | .touch id server => s.touch id server
  | .hear id req => s.hear cfg id req
  | .sweep id => s.sweep cfg id
  | .sweepDead id => s.sweepDead cfg id
  | .gcPass id unixSeconds => s.gcPass cfg id unixSeconds
  | .gcRemove id => s.gcRemove id
  | .gcDrop id => s.gcDrop id
  | .advance passed => s.advance passed
  | .flush count => s.flush count
  | .done id => s.done id
  | .restart kept => s.restart kept

def step (cfg : Config) (s : Live) (a : Action) : Option Live := act cfg { s with answer := none } a

def Initial (s : Live) : Prop := s = {}

end Live

end Gfs.Master
