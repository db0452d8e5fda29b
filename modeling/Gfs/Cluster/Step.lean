import Gfs.Cluster.Model

/-!
# The steps of the cluster
-/

namespace Gfs.Cluster
open Chunkserver Master Lib.Transition

/-! ## Mutations -/

/-- A client writes or appends under what it was told by the master. -/
def client (s : Cluster) (k : Known) (op : MutationOp) : Option Cluster :=
  if k ∈ s.known ∧ op.version = k.version then
    (s.group.startClient k.primary op).map fun group =>
      { s with group, issued := s.issued ++ [k.path] }
  else none

/-- The store call that the mutation handler makes in its next step. -/
def storeCall (cfg : Config) (io : Io) (s : Cluster) (server : ServerId) : Option Mutation :=
  ((s.replica server).advance cfg s.now io).bind (·.stored)

def advance (cfg : Config) (io : Io) (s : Cluster) (server : ServerId) : Option Cluster :=
  (s.group.advance cfg io server).map fun group =>
    { s with
      group
      history := s.history ++ match storeCall cfg io s server with
        | some m => [.stored server s.issued[m.origin.call]? s.refs]
        | none => [] }

/-! ## Requests of the master -/

def send (s : Cluster) (bodies : List (ServerId × Body)) : Cluster :=
  { s with
    number := s.number + 1
    requests := s.requests ++ bodies.map fun (target, body) => ⟨s.number, target, body⟩ }

def answer (s : Cluster) (number : Nat) (target : ServerId) (ok : Bool) : Cluster :=
  { s with answers := s.answers ++ [⟨number, target, ok⟩] }

/-- The `SetVersion` of `GrantLease` and `UpdateVersion`; only a failure is answered at once. -/
def executeVersion (io : Io) (s : Cluster) (q : Request) (half : Half) : Cluster :=
  match (s.replica q.target).setVersion io half.version half with
  | (.ok, r) => s.setReplica q.target r
  | (_, r) => (s.setReplica q.target r).answer q.number q.target false

/-- A chunkserver starts on a request of the master; `data` is what `CreateChunk` copies. -/
def execute (cfg : Config) (io : Io) (s : Cluster) (q : Request) (data : Bytes) : Option Cluster :=
  if q ∈ s.requests then
    let s := { s with requests := s.requests.erase q }
    match q.body with
    | .grantLease version secondaries =>
        some (s.executeVersion io q (.grant version cfg.leaseDuration secondaries q.number))
    | .updateVersion version => some (s.executeVersion io q (.update version q.number))
    | .revokeLease =>
        some ((s.setReplica q.target (s.replica q.target).revokeLease).answer q.number q.target true)
    | .createChunk version =>
        if io = .ok then
          let (code, r) := (s.replica q.target).createChunk version data
          some ((s.setReplica q.target r).answer q.number q.target (code = .ok))
        else some (s.answer q.number q.target false)
  else none

/-- The lease table call that ends `GrantLease` and `UpdateVersion`. -/
def complete (cfg : Config) (s : Cluster) (server : ServerId) (half : Half) : Option Cluster :=
  if half ∈ (s.replica server).halves then
    let s' := (s.setReplica server ((s.replica server).completeHalf cfg s.now half)).answer
      half.tag server true
    match half with
    | .grant _ _ _ number => some { s' with executed := s.executed ++ [number] }
    | .update _ _ => some s'
  else none

def isOpen (s : Cluster) (number : Nat) (target : ServerId) : Bool :=
  s.ended.all fun e => ¬ (e.number = number ∧ e.target = target)

def accept (s : Cluster) (a : Answer) : Option Cluster :=
  if a ∈ s.answers ∧ s.isOpen a.number a.target then some { s with ended := s.ended ++ [a] }
  else none

def timeout (s : Cluster) (number : Nat) (target : ServerId) : Option Cluster :=
  if number < s.number ∧ s.isOpen number target then
    some { s with ended := s.ended ++ [⟨number, target, false⟩] }
  else none

def succeeded (s : Cluster) (number : Nat) (target : ServerId) : Bool :=
  ⟨number, target, true⟩ ∈ s.ended

/-! ## `SendHeartbeat` -/

def setSender (s : Cluster) (server : ServerId) (sender : Option Sender) : Cluster :=
  { s with senders := Function.update s.senders server sender }

/-- The next step of `SendHeartbeat` up to the call: `List`, `HandlesToExtend`, `CorruptHandles`. -/
def compose (s : Cluster) (server : ServerId) : Option Cluster :=
  let r := s.replica server
  match s.senders server with
  | none => some (s.setSender server (some (.listed (r.entry.map (·.version)))))
  | some (.listed version) =>
      some (s.setSender server (some (.asked version (LeaseTable.toExtend s.now r.slot))))
  | some (.asked version extend) =>
      let beat := ⟨s.number, server, version, extend, r.corrupt⟩
      some { s.setSender server (some (.sent beat)) with
        number := s.number + 1
        beats := s.beats ++ [beat]
        corruptReports := if r.corrupt then s.corruptReports ++ [server] else s.corruptReports }
  | some _ => none

/-- The answer arrives: `ClearCorrupt`. -/
def receive (s : Cluster) (a : BeatAnswer) : Option Cluster :=
  if a ∈ s.beatAnswers ∧ s.senders a.beat.server = some (.sent a.beat) then
    let r := s.replica a.beat.server
    some ((s.setReplica a.beat.server { r with corrupt := r.corrupt && !a.beat.corrupt }).setSender
      a.beat.server (some (.answered a)))
  else none

def giveUp (s : Cluster) (server : ServerId) : Option Cluster :=
  match s.senders server with
  | some (.sent _) => some (s.setSender server none)
  | _ => none

/-- The next step of `SendHeartbeat` after the call: `Revoke`, `Remove`, `Extend`. -/
def obey (cfg : Config) (s : Cluster) (server : ServerId) : Option Cluster :=
  let r := s.replica server
  match s.senders server with
  | some (.answered a) =>
      if a.delete then some ((s.setReplica server r.revokeLease).setSender server (some (.removing a)))
      else some (s.setSender server (some (.extending a)))
  | some (.removing a) =>
      some { (s.setReplica server r.remove).setSender server (some (.extending a)) with
        history := s.history ++ match r.entry with
          | some entry => [.removed server entry.version (s.chunk.map (·.version)) s.refs
              (server ∈ s.corruptReports)]
          | none => [] }
  | some (.extending a) =>
      if a.extended then
        some ((s.setReplica server (r.extendLease cfg s.now cfg.leaseDuration)).setSender server none)
      else some (s.setSender server none)
  | _ => none

/-! ## `Master::HeartBeat` and `SweepDead` -/

/-- `Touch`, with the clock that the handler goes on with. -/
def touch (s : Cluster) (b : Beat) : Option Cluster :=
  if b ∈ s.beats then
    some { s with
      beats := s.beats.erase b
      registry := s.registry.insert b.server ⟨s.now, true⟩
      handling := s.handling ++ [(b, s.now)] }
  else none

/-- The section of `HeartBeat`, and `RequestRegrant`. -/
def heartBeat (cfg : Config) (s : Cluster) (b : Beat) (time : TimePoint) : Option Cluster :=
  if (b, time) ∈ s.handling then
    let verdict := ChunkMeta.heartBeat cfg time b.server b.version b.corrupt b.extend s.chunk
    some { s with
      handling := s.handling.erase (b, time)
      chunk := verdict.chunk
      beatAnswers := s.beatAnswers ++ [⟨b, time, verdict.delete, verdict.extended⟩]
      regrantPending := s.regrantPending || verdict.regrant }
  else none

def isDead (cfg : Config) (now : TimePoint) (info : Info) : Bool :=
  info.alive && decide (cfg.chunkserverDeadTimeout < now - info.lastHeartbeat)

def sweep (cfg : Config) (s : Cluster) : Option Cluster :=
  if s.sweeping = none then
    some { s with
      registry := s.registry.map fun _ info =>
        if isDead cfg s.now info then { info with alive := false } else info
      sweeping := some (s.now, (s.registry.toList.filter fun (_, info) =>
        isDead cfg s.now info).map (·.1)) }
  else none

def sweepLocations (cfg : Config) (s : Cluster) : Option Cluster :=
  match s.sweeping with
  | none => none
  | some (time, dead) =>
      match s.chunk with
      | none => some { s with sweeping := none }
      | some m =>
          let swept := dead.foldl (fun (regrant, m) server =>
            let (due, m) := m.sweep cfg time server
            (regrant || due, m)) (false, m)
          some { s with
            sweeping := none
            chunk := some swept.2
            regrantPending := s.regrantPending || swept.1 }

/-! ## Creation, copy-on-write and the end of a chunk -/

/-- `AllocHandle` and `CreateChunkOn`, for `AddChunk` or as the copy of `CopyOnWrite`. -/
def create (s : Cluster) (path : Str) (index : Nat) (targets : List ServerId) (copy : Bool) :
    Option Cluster :=
  if s.allocated = false ∧ targets.Nodup then
    some { s.send (targets.map (·, .createChunk 1)) with
      allocated := true
      targets
      chunk := some { version := 1, pending := true }
      creating := some ⟨path, index, s.number, targets, copy⟩ }
  else none

/-- The section after `CreateChunkOn`: `ApplyAddChunk` or `ApplyReplaceChunk`. -/
def endCreate (cfg : Config) (s : Cluster) : Option Cluster :=
  match s.creating, s.chunk with
  | some c, some m =>
      if c.targets.all fun id => ¬ s.isOpen c.number id then
        let ok := c.targets.filter (s.succeeded c.number)
        if ok.length < cfg.minReplicasForWrite ∨ ok = [] then
          some { s with
            creating := none
            chunk := none
            forgotten := s.forgotten ++ s.recorded.toList }
        else
          let placed := ok.foldl (fun m id => m.addLocation id s.now) m
          some { s with
            creating := none
            chunk := some { placed with pending := false, refcount := placed.refcount + 1 }
            refs := s.refs ++ [(c.path, c.index)]
            finds := if c.copy then s.finds ++ [⟨c.path, c.index, .decide⟩] else s.finds }
      else none
  | _, _ => none

/-- `GcPass` drops a chunk that no file refers to. -/
def dropChunk (s : Cluster) : Option Cluster :=
  match s.chunk with
  | some m =>
      if m.pending = false ∧ s.refs = [] then
        some { s with
          chunk := none
          forgotten := s.forgotten ++ s.recorded.toList }
      else none
  | none => none

/-! ## Path locks -/

/-- The paths that read locks on the file are held for. -/
def readers (s : Cluster) : List Str :=
  s.finds.map (·.path) ++ (s.grant.bind (·.client)).toList.map (·.1) ++
    (s.creating.map (·.path)).toList

def writers (s : Cluster) : List Snapshot :=
  s.snapshots ++ s.parked.map (·.1) ++ s.revokes.filterMap (·.snapshot)

/-- The snapshot's write locks keep calls on this path out. -/
def Snapshot.covers (t : Snapshot) (path : Str) : Bool :=
  isAncestorOrSelf t.source path || isAncestorOrSelf t.target path

/-- `GcPass` removes a hidden file: `ApplyRemove`. -/
def removeFile (s : Cluster) (path : Str) : Option Cluster :=
  if path ∉ s.readers ∧ ∀ t ∈ s.writers, t.covers path = false then
    let gone := s.refs.filter (·.1 = path)
    some { s with
      refs := s.refs.filter (·.1 ≠ path)
      chunk := s.chunk.map fun m => { m with refcount := m.refcount - gone.length } }
  else none

/-! ## `FindLeaseHolder` -/

def find (s : Cluster) (path : Str) (index : Nat) : Option Cluster :=
  if ∀ t ∈ s.writers, t.covers path = false then
    some { s with finds := s.finds ++ [⟨path, index, .attempt⟩] }
  else none

def moveFind (s : Cluster) (f : Find) (phase : Option FindPhase) : Cluster :=
  { s with finds := s.finds.erase f ++ (phase.map fun phase => { f with phase }).toList }

/-- The next step of `FindLeaseHolderAttempt` and of `CopyOnWrite`; the call leaves the model when
it ends or when the file has another chunk at its index. -/
def findStep (cfg : Config) (s : Cluster) (f : Find) (copied : Bool) : Option Cluster :=
  if f ∈ s.finds then
    match f.phase, s.chunk with
    | .attempt, some m =>
        if (f.path, f.index) ∈ s.refs then
          some (s.moveFind f (some (if 1 < m.refcount then .copy else .decide)))
        else some (s.moveFind f none)
    | .copy, some m =>
        -- `cow_mutex` is held from here to the end of `CopyOnWrite`
        if s.finds.any (·.phase = .copying) then none
        else if (f.path, f.index) ∉ s.refs then some (s.moveFind f none)
        else some (s.moveFind f (some (if m.refcount ≤ 1 then .decide else .copying)))
    | .copying, some m =>
        if copied ∧ (f.path, f.index) ∈ s.refs then
          some { s.moveFind f none with
            refs := s.refs.erase (f.path, f.index)
            chunk := some { m with refcount := m.refcount - 1 } }
        else some (s.moveFind f none)
    | .decide, some m =>
        match m.lease with
        | none => some (s.moveFind f (some .queued))
        | some l =>
            if m.isValid cfg s.now then
              some { s.moveFind f none with
                known := s.known ++ [⟨f.path, f.index, m.version, l.primary⟩] }
            else if m.isPendingExpiry cfg s.now then
              some (s.moveFind f (some (.parked (ChunkMeta.waitUntil cfg l))))
            else some ((s.moveFind f (some .queued)).setChunk { m with lease := none })
    | .parked until_, _ =>
        if until_ ≤ s.now then some (s.moveFind f (some .attempt)) else none
    | .queued, _ =>
        if s.grant = none then
          some { s.moveFind f none with grant := some { client := some (f.path, f.index) } }
        else none
    | _, none => some (s.moveFind f none)
  else none

/-! ## `Regrant` and `GrantSerialized` -/

def regrant (cfg : Config) (s : Cluster) : Option Cluster :=
  if s.regrantPending ∧ s.grant = none then
    let s := { s with regrantPending := false }
    if s.chunk.any (·.isValid cfg s.now) then some { s with grant := some { client := none } }
    else some s
  else none

def bodies (attempt : Attempt) (list : List ServerId) : List (ServerId × Body) :=
  (attempt.primary, .grantLease attempt.version list) ::
    attempt.secondaries.map (·, .updateVersion attempt.version)

def members (attempt : Attempt) : List ServerId := attempt.primary :: attempt.secondaries

def prepare (cfg : Config) (s : Cluster) (g : GrantCall) : Cluster :=
  if g.round < 8 then
    match s.chunk.bind (·.prepareLocked cfg s.alive) with
    | none => { s with grant := some { g with phase := .clearing } }
    | some (attempt, m) =>
        { s with
          chunk := some m
          grant := some { g with phase := .resolving attempt attempt.secondaries [] } }
  else { s with grant := some { g with phase := .clearing } }

/-- The leases that the master loses track of when this round ends without a commit. -/
def lost (cfg : Config) (s : Cluster) (attempt : Attempt) (number : Nat) :
    List (ServerId × TimePoint) :=
  if number ∈ s.executed then [(attempt.primary, s.now + cfg.leaseDuration)] else []

def endRound (cfg : Config) (s : Cluster) (g : GrantCall) (attempt : Attempt) (number : Nat) :
    Cluster :=
  let failed := (members attempt).filter fun id => !s.succeeded number id
  match s.chunk with
  | none =>
      { s with
        grant := some { g with phase := .returning none }
        forgotten := s.forgotten ++ s.lost cfg attempt number }
  | some m =>
      if failed ≠ [] then
        { s with
          chunk := some (failed.foldl ChunkMeta.removeLocation m)
          grant := some { g with round := g.round + 1, phase := .preparing }
          forgotten := s.forgotten ++ s.lost cfg attempt number }
      else
        let committed := m.commit cfg s.now attempt
        { s with
          chunk := some committed
          grant := some { g with phase := .returning (some (attempt, committed.version)) } }

/-- What `FindLeaseHolder` answers after `Grant`. -/
def granted (g : GrantCall) (attempt : Option (Attempt × Nat)) : List Known :=
  match g.client, attempt with
  | some (path, index), some (attempt, version) => [⟨path, index, version, attempt.primary⟩]
  | _, _ => []

def grantStep (cfg : Config) (s : Cluster) : Option Cluster :=
  match s.grant with
  | none => none
  | some g =>
      match g.phase with
      | .preparing => some (s.prepare cfg g)
      | .resolving attempt (id :: todo) list =>
          let list := if s.alive id then list ++ [id] else list
          some { s with grant := some { g with phase := .resolving attempt todo list } }
      | .resolving attempt [] list =>
          some { s.send (bodies attempt list) with
            grant := some { g with phase := .waiting attempt list s.number } }
      | .waiting attempt _ number =>
          if (members attempt).all fun id => ¬ s.isOpen number id then
            some (s.endRound cfg g attempt number)
          else none
      | .clearing =>
          some { s with
            chunk := s.chunk.map fun m => { m with granting := false }
            grant := some { g with phase := .returning none } }
      | .returning attempt => some { s with grant := none, known := s.known ++ granted g attempt }

/-! ## `Revoke` and `Snapshot` -/

/-- The leases that the master loses track of when it resets a record of a lease that is held. -/
def dropped (s : Cluster) (l : Lease) : List (ServerId × TimePoint) :=
  if (s.held l.primary).isSome then [(l.primary, l.expiry)] else []

/-- The snapshot has nothing to wait for any more, or waits until `until_`. -/
def park (s : Cluster) (snapshot : Option Snapshot) (until_ : TimePoint) : Cluster :=
  match snapshot with
  | none => s
  | some t => { s with parked := s.parked ++ [(t, until_)] }

/-- `RevokeLeasesOn` comes to the chunk: the first section of `Revoke`, and the `RevokeLease` unless
the primary is known to be `unreachable`. -/
def revoke (cfg : Config) (s : Cluster) (snapshot : Option Snapshot) (unreachable : Bool) :
    Option Cluster :=
  if ∀ t ∈ snapshot, t ∈ s.snapshots then
    let s := { s with snapshots := match snapshot with
      | some t => s.snapshots.erase t
      | none => s.snapshots }
    match s.chunk with
    | none => some (s.park snapshot s.now)
    | some m =>
        match m.revokeLocked cfg s.now with
        | (none, m) => some ((s.setChunk m).park snapshot s.now)
        | (some l, m) =>
            let s := s.setChunk m
            if unreachable then
              some (s.park snapshot (ChunkMeta.waitUntil cfg l))
            else
              some { s.send [(l.primary, .revokeLease)] with
                revokes := s.revokes ++ [⟨s.number, l.primary, l.expiry, snapshot⟩] }
  else none

def endRevoke (cfg : Config) (s : Cluster) (c : RevokeCall) : Option Cluster :=
  if c ∈ s.revokes ∧ s.isOpen c.number c.primary = false then
    let s := { s with revokes := s.revokes.erase c }
    let wait := c.expiry + cfg.leaseClockSkewMargin + millis 1
    match s.chunk with
    | none => some (s.park c.snapshot wait)
    | some m =>
        match s.succeeded c.number c.primary, m.revokeAcked c.primary, m.lease with
        | true, (true, m), some l =>
            some ({ s.setChunk m with forgotten := s.forgotten ++ s.dropped l }.park c.snapshot s.now)
        | _, _, _ => some (s.park c.snapshot wait)
  else none

/-- `Snapshot` up to `RevokeLeasesOn`, which has to revoke a lease on the chunk if a file of the
source has it. -/
def snapshot (s : Cluster) (t : Snapshot) : Option Cluster :=
  if isAncestorOrSelf t.source t.target = false ∧ isAncestorOrSelf t.target t.source = false ∧
      (∀ path ∈ s.readers, t.covers path = false) ∧
      (∀ other ∈ s.writers, t.covers other.source = false ∧ t.covers other.target = false ∧
        other.covers t.source = false ∧ other.covers t.target = false) ∧
      ∀ ref ∈ s.refs, isAncestorOrSelf t.target ref.1 = false then
    if s.refs.any fun ref => isAncestorOrSelf t.source ref.1 && !isHiddenPath ref.1 then
      some { s with snapshots := s.snapshots ++ [t] }
    else some { s with parked := s.parked ++ [(t, s.now)] }
  else none

/-- Where `ApplySnapshot` puts the copy of a file of the source. -/
def copied (t : Snapshot) (path : Str) : Str :=
  if path = t.source then t.target
  else childPrefix t.target ++ path.drop (childPrefix t.source).length

def copiedRefs (t : Snapshot) (refs : List (Str × Nat)) : List (Str × Nat) :=
  (refs.filter fun ref => isAncestorOrSelf t.source ref.1 && !isHiddenPath ref.1).map
    fun ref => (copied t ref.1, ref.2)

def snapshotFinish (cfg : Config) (s : Cluster) (t : Snapshot) (until_ : TimePoint) :
    Option Cluster :=
  if (t, until_) ∈ s.parked ∧ until_ ≤ s.now then
    let copies := copiedRefs t s.refs
    let s := { s with
      parked := s.parked.erase (t, until_)
      refs := s.refs ++ copies
      history := s.history ++ [Event.snapshotOk t.source t.target] }
    match s.chunk with
    | none => some s
    | some m =>
        let counted := { m with refcount := m.refcount + copies.length }
        match m.lease with
        | none => some (s.setChunk counted)
        | some l =>
            if m.isValid cfg s.now then some (s.setChunk counted)
            else some { s.setChunk { counted with lease := none } with
              forgotten := s.forgotten ++ s.dropped l }
  else none

/-! ## The system -/

inductive Action
  | tick (elapsed : Nat)
  | push (server : ServerId) (key : BufferKey) (data : Bytes)
  | client (k : Known) (op : MutationOp)
  | deliver (m : Forward)
  | advance (io : Io) (server : ServerId)
  | acceptForward (reply : Reply)
  | timeoutForward (call : Nat) (secondary : ServerId)
  | finish (server : ServerId)
  | markCorrupt (server : ServerId)
  | execute (io : Io) (q : Request) (data : Bytes)
  | complete (server : ServerId) (half : Half)
  | accept (a : Answer)
  | timeout (number : Nat) (target : ServerId)
  | compose (server : ServerId)
  | receive (a : BeatAnswer)
  | giveUp (server : ServerId)
  | obey (server : ServerId)
  | touch (b : Beat)
  | heartBeat (b : Beat) (time : TimePoint)
  | sweep
  | sweepLocations
  | create (path : Str) (index : Nat) (targets : List ServerId) (copy : Bool)
  | endCreate
  | dropChunk
  | removeFile (path : Str)
  | find (path : Str) (index : Nat)
  | findStep (f : Find) (copied : Bool)
  | regrant
  | grantStep
  | revoke (snapshot : Option Snapshot) (unreachable : Bool)
  | endRevoke (c : RevokeCall)
  | snapshot (t : Snapshot)
  | snapshotFinish (t : Snapshot) (until_ : TimePoint)

def Action.isMutation : Action → Bool
  | .push _ _ _ | .client _ _ | .deliver _ | .advance _ _ | .acceptForward _ | .timeoutForward _ _
  | .finish _ => true
  | _ => false

def onGroup (s : Cluster) (group : Option Group) : Option Cluster :=
  group.map fun group => { s with group }

def step (cfg : Config) (s : Cluster) : Action → Option Cluster
  | .tick elapsed => some { s with group := { s.group with now := s.group.now + elapsed } }
  | .push server key data => some { s with group := s.group.push server key data }
  | .client k op => s.client k op
  | .deliver m => s.onGroup (s.group.deliver m)
  | .advance io server => s.advance cfg io server
  | .acceptForward reply => s.onGroup (s.group.accept reply)
  | .timeoutForward call secondary => s.onGroup (s.group.timeout call secondary)
  | .finish server => s.onGroup (s.group.finish server)
  | .markCorrupt server =>
      if (s.replica server).entry.isSome then
        some (s.setReplica server { s.replica server with corrupt := true })
      else none
  | .execute io q data => s.execute cfg io q data
  | .complete server half => s.complete cfg server half
  | .accept a => s.accept a
  | .timeout number target => s.timeout number target
  | .compose server => s.compose server
  | .receive a => s.receive a
  | .giveUp server => s.giveUp server
  | .obey server => s.obey cfg server
  | .touch b => s.touch b
  | .heartBeat b time => s.heartBeat cfg b time
  | .sweep => s.sweep cfg
  | .sweepLocations => s.sweepLocations cfg
  | .create path index targets copy => s.create path index targets copy
  | .endCreate => s.endCreate cfg
  | .dropChunk => s.dropChunk
  | .removeFile path => s.removeFile path
  | .find path index => s.find path index
  | .findStep f copied => s.findStep cfg f copied
  | .regrant => s.regrant cfg
  | .grantStep => s.grantStep cfg
  | .revoke snapshot unreachable => s.revoke cfg snapshot unreachable
  | .endRevoke c => s.endRevoke cfg c
  | .snapshot t => s.snapshot t
  | .snapshotFinish t until_ => s.snapshotFinish cfg t until_

/-- The handle has not been allocated, so no chunkserver and no call knows it. -/
def Initial (s : Cluster) : Prop :=
  ∃ (now : TimePoint) (registry : Std.ExtTreeMap ServerId Info) (buffers : ServerId → DataBuffer), s =
    { group := { now, replicas := fun server => { buffer := buffers server } }, registry }

/-! ## Scripts -/

/-- The handler that a request of the master becomes when its `SetVersion` succeeds. -/
def Request.half (cfg : Config) (q : Request) : Option Half :=
  match q.body with
  | .grantLease version secondaries =>
      some (.grant version cfg.leaseDuration secondaries q.number)
  | .updateVersion version => some (.update version q.number)
  | _ => none

/-- A chunkserver executes the request and its answer arrives. -/
def serve (cfg : Config) (q : Request) : List Action :=
  .execute .ok q [] :: (q.half cfg).toList.map (.complete q.target) ++
    [.accept ⟨q.number, q.target, true⟩]

/-- `AddChunk` whose `CreateChunk`s have this number. -/
def addChunk (cfg : Config) (path : Str) (targets : List ServerId) (number : Nat) : List Action :=
  .create path 0 targets false ::
    (targets.flatMap fun id => serve cfg ⟨number, id, .createChunk 1⟩) ++ [.endCreate]

/-- `FindLeaseHolder` up to the start of `GrantSerialized`. -/
def requestLease (path : Str) : List Action :=
  .find path 0 :: [FindPhase.attempt, .decide, .queued].map fun phase => .findStep ⟨path, 0, phase⟩ false

/-- `GrantSerialized` up to the requests to the primary and its secondaries. -/
def sendRound (secondaries : List ServerId) : List Action :=
  List.replicate (2 + secondaries.length) .grantStep

def sendHeartbeat (server : ServerId) : List Action := List.replicate 3 (.compose server)

/-- The master handles the heartbeat at `time`. -/
def handle (b : Beat) (time : TimePoint) : List Action := [.touch b, .heartBeat b time]

def obeyAnswer (a : BeatAnswer) : List Action :=
  .receive a :: List.replicate (if a.delete then 3 else 2) (.obey a.beat.server)

def serverP : ServerId := "p".toList
def serverQ : ServerId := "q".toList
def fileA : Str := "/a".toList

def twoServers : Cluster :=
  { group := { now := 0, replicas := fun _ => { buffer := { capacity := 100 } } }
    registry := (Std.ExtTreeMap.insert ∅ serverP ⟨0, true⟩).insert serverQ ⟨0, true⟩ }

theorem initial_twoServers : Initial twoServers := ⟨0, _, fun _ => { capacity := 100 }, rfl⟩

end Gfs.Cluster
