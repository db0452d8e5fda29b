import Gfs.Cluster.Step

/-!
# What a step of the cluster can do

`Moves` lists the outcomes of every step with what it found and the new core of the state. Steps that
leave the core alone are `still`.
-/

namespace Gfs.Cluster
open Chunkserver Master

def Core.setReplica (s : Core) (server : ServerId) (r : Replica) : Core :=
  { s with group := s.group.setReplica server r }

def Core.setSender (s : Core) (server : ServerId) (sender : Option Sender) : Core :=
  { s with senders := Function.update s.senders server sender }

def Core.answer (s : Core) (number : Nat) (target : ServerId) (ok : Bool) : Core :=
  { s with answers := s.answers ++ [⟨number, target, ok⟩] }

def Core.send (s : Core) (bodies : List (ServerId × Body)) : Core :=
  { s with
    number := s.number + 1
    requests := s.requests ++ bodies.map fun (target, body) => ⟨s.number, target, body⟩ }

def Event.isStored : Event → Bool
  | .stored _ _ _ => true
  | _ => false

inductive Moves (cfg : Config) (s : Cluster) : Action → Core → Prop
  | still {action : Action} : Moves cfg s action s.toCore
  | tick {elapsed : Nat} :
      Moves cfg s (.tick elapsed)
        { s.toCore with group := { s.group with now := s.group.now + elapsed } }
  | mutate {action : Action} {group : Group} {events : List Event} : action.isMutation = true →
      Group.Keeps s.group group →
      (∀ e ∈ events, e.isStored = true) →
      Moves cfg s action { s.toCore with group, history := s.history ++ events }
  | markCorrupt {server : ServerId} :
      Moves cfg s (.markCorrupt server)
        (s.toCore.setReplica server { s.replica server with corrupt := true })
  -- requests of the master
  | raise {io : Io} {q : Request} {data : Bytes} {half : Half} {entry : ChunkEntry} :
      q ∈ s.requests → q.half cfg = some half → (s.replica q.target).entry = some entry →
      Moves cfg s (.execute io q data)
        { s.toCore.setReplica q.target { s.replica q.target with
            entry := some { entry with version := half.version }
            halves := (s.replica q.target).halves ++ [half] } with
          requests := s.requests.erase q }
  | refuse {io : Io} {q : Request} {data : Bytes} {ok : Bool} : q ∈ s.requests →
      (ok = true → ∃ version, q.body = .createChunk version) →
      Moves cfg s (.execute io q data)
        { s.toCore.answer q.number q.target ok with requests := s.requests.erase q }
  | revokeLease {io : Io} {q : Request} {data : Bytes} : q ∈ s.requests → q.body = .revokeLease →
      Moves cfg s (.execute io q data)
        { (s.toCore.setReplica q.target (s.replica q.target).revokeLease).answer q.number q.target
            true with requests := s.requests.erase q }
  | createChunk {io : Io} {q : Request} {data : Bytes} {version : Nat} : q ∈ s.requests →
      q.body = .createChunk version → (s.replica q.target).entry = none →
      Moves cfg s (.execute io q data)
        { (s.toCore.setReplica q.target { s.replica q.target with entry := some { version, data } }).answer
            q.number q.target true with requests := s.requests.erase q }
  | grantLease {server : ServerId} {version : Nat} {lease : Duration} {secondaries : List ServerId}
      {number : Nat} : .grant version lease secondaries number ∈ (s.replica server).halves →
      Moves cfg s (.complete server (.grant version lease secondaries number))
        { (s.toCore.setReplica server ((s.replica server).completeHalf cfg s.now
            (.grant version lease secondaries number))).answer number server true with
          executed := s.executed ++ [number] }
  | updateVersion {server : ServerId} {version number : Nat} :
      .update version number ∈ (s.replica server).halves →
      Moves cfg s (.complete server (.update version number))
        ((s.toCore.setReplica server ((s.replica server).completeHalf cfg s.now
          (.update version number))).answer number server true)
  | accept {a : Answer} : a ∈ s.answers → s.isOpen a.number a.target = true →
      Moves cfg s (.accept a) { s.toCore with ended := s.ended ++ [a] }
  | timeout {number : Nat} {target : ServerId} : number < s.number →
      s.isOpen number target = true →
      Moves cfg s (.timeout number target)
        { s.toCore with ended := s.ended ++ [⟨number, target, false⟩] }
  -- `SendHeartbeat`
  | list {server : ServerId} : s.senders server = none →
      Moves cfg s (.compose server)
        (s.toCore.setSender server (some (.listed ((s.replica server).entry.map (·.version)))))
  | ask {server : ServerId} {version : Option Nat} :
      s.senders server = some (.listed version) →
      Moves cfg s (.compose server)
        (s.toCore.setSender server
          (some (.asked version (LeaseTable.toExtend s.now (s.replica server).slot))))
  | sendBeat {server : ServerId} {version : Option Nat} {extend : Bool} :
      s.senders server = some (.asked version extend) →
      Moves cfg s (.compose server)
        { s.toCore.setSender server
            (some (.sent ⟨s.number, server, version, extend, (s.replica server).corrupt⟩)) with
          number := s.number + 1
          beats := s.beats ++ [⟨s.number, server, version, extend, (s.replica server).corrupt⟩]
          corruptReports :=
            if (s.replica server).corrupt then s.corruptReports ++ [server] else s.corruptReports }
  | receive {a : BeatAnswer} : a ∈ s.beatAnswers → s.senders a.beat.server = some (.sent a.beat) →
      Moves cfg s (.receive a)
        ((s.toCore.setReplica a.beat.server { s.replica a.beat.server with
          corrupt := (s.replica a.beat.server).corrupt && !a.beat.corrupt }).setSender a.beat.server
            (some (.answered a)))
  | giveUp {server : ServerId} : Moves cfg s (.giveUp server) (s.toCore.setSender server none)
  | obeyRevoke {server : ServerId} {a : BeatAnswer} : s.senders server = some (.answered a) →
      a.delete = true →
      Moves cfg s (.obey server)
        ((s.toCore.setReplica server (s.replica server).revokeLease).setSender server
          (some (.removing a)))
  | obeySkip {server : ServerId} {a : BeatAnswer} : s.senders server = some (.answered a) →
      Moves cfg s (.obey server) (s.toCore.setSender server (some (.extending a)))
  | remove {server : ServerId} {a : BeatAnswer} {entry : ChunkEntry} :
      s.senders server = some (.removing a) → (s.replica server).entry = some entry →
      Moves cfg s (.obey server)
        { (s.toCore.setReplica server (s.replica server).remove).setSender server
            (some (.extending a)) with
          history := s.history ++ [.removed server entry.version (s.chunk.map (·.version)) s.refs
            (server ∈ s.corruptReports)] }
  | removeNothing {server : ServerId} {a : BeatAnswer} : s.senders server = some (.removing a) →
      (s.replica server).entry = none →
      Moves cfg s (.obey server)
        ((s.toCore.setReplica server (s.replica server).remove).setSender server
          (some (.extending a)))
  | extend {server : ServerId} {a : BeatAnswer} : s.senders server = some (.extending a) →
      a.extended = true →
      Moves cfg s (.obey server)
        ((s.toCore.setReplica server ((s.replica server).extendLease cfg s.now cfg.leaseDuration)).setSender
          server none)
  | obeyed {server : ServerId} {a : BeatAnswer} : s.senders server = some (.extending a) →
      Moves cfg s (.obey server) (s.toCore.setSender server none)
  -- `HeartBeat` and `SweepDead`
  | touch {b : Beat} : b ∈ s.beats →
      Moves cfg s (.touch b)
        { s.toCore with beats := s.beats.erase b, handling := s.handling ++ [(b, s.now)] }
  | heartBeatUnknown {b : Beat} {time : TimePoint} : (b, time) ∈ s.handling → s.chunk = none →
      Moves cfg s (.heartBeat b time)
        { s.toCore with
          handling := s.handling.erase (b, time)
          beatAnswers := s.beatAnswers ++ [⟨b, time, b.version.isSome || b.corrupt, false⟩] }
  | heartBeat {b : Beat} {time : TimePoint} {m m' : ChunkMeta} {delete : Bool} :
      (b, time) ∈ s.handling → s.chunk = some m → m.Follows m' → m'.lease = m.lease →
      (m'.version = m.version ∨ b.version = some m'.version) →
      (delete = true → b.corrupt = true ∨ ∃ v, b.version = some v ∧ v < m.version) →
      Moves cfg s (.heartBeat b time)
        { s.toCore with
          handling := s.handling.erase (b, time)
          chunk := some m'
          beatAnswers := s.beatAnswers ++ [⟨b, time, delete, false⟩] }
  | heartBeatExtend {b : Beat} {time : TimePoint} {m m' : ChunkMeta} {l : Lease} {delete : Bool} :
      (b, time) ∈ s.handling → s.chunk = some m → m.Follows m' → m.lease = some l →
      b.extend = true → l.revoked = false → time ≤ l.expiry + cfg.leaseClockSkewMargin →
      l.primary = b.server → m'.lease = some { l with expiry := time + cfg.leaseDuration } →
      (m'.version = m.version ∨ b.version = some m'.version) →
      (delete = true → b.corrupt = true ∨ ∃ v, b.version = some v ∧ v < m.version) →
      Moves cfg s (.heartBeat b time)
        { s.toCore with
          handling := s.handling.erase (b, time)
          chunk := some m'
          beatAnswers := s.beatAnswers ++ [⟨b, time, delete, true⟩] }
  | sweep {m : ChunkMeta} {locations : Std.ExtTreeMap ServerId TimePoint} : s.chunk = some m →
      (∀ server, server ∈ locations → server ∈ m.locations) →
      Moves cfg s .sweepLocations { s.toCore with chunk := some { m with locations } }
  -- creation, copy-on-write and the end of the chunk
  | create {path : Str} {index : Nat} {targets : List ServerId} {copy : Bool} :
      s.allocated = false → targets.Nodup →
      Moves cfg s (.create path index targets copy)
        { s.toCore.send (targets.map (·, .createChunk 1)) with
          allocated := true
          targets
          chunk := some { version := 1, pending := true }
          creating := some ⟨path, index, s.number, targets, copy⟩ }
  | createFailed {c : CreateCall} : s.creating = some c →
      Moves cfg s .endCreate
        { s.toCore with
          creating := none
          chunk := none
          forgotten := s.forgotten ++ s.recorded.toList }
  | created {c : CreateCall} {m : ChunkMeta} {locations : Std.ExtTreeMap ServerId TimePoint} :
      s.creating = some c → s.chunk = some m →
      Moves cfg s .endCreate
        { s.toCore with
          creating := none
          chunk := some { m with locations, pending := false, refcount := m.refcount + 1 }
          refs := s.refs ++ [(c.path, c.index)] }
  | dropChunk {m : ChunkMeta} : s.chunk = some m → m.pending = false → s.refs = [] →
      Moves cfg s .dropChunk
        { s.toCore with
          chunk := none
          forgotten := s.forgotten ++ s.recorded.toList }
  | removeFile {path : Str} :
      Moves cfg s (.removeFile path)
        { s.toCore with
          refs := s.refs.filter (·.1 ≠ path)
          chunk := s.chunk.map fun m =>
            { m with refcount := m.refcount - (s.refs.filter (·.1 = path)).length } }
  | copyOnWrite {f : Find} {copied : Bool} {m : ChunkMeta} : s.chunk = some m →
      (f.path, f.index) ∈ s.refs →
      Moves cfg s (.findStep f copied)
        { s.toCore with
          refs := s.refs.erase (f.path, f.index)
          chunk := some { m with refcount := m.refcount - 1 } }
  | tell {f : Find} {copied : Bool} {m : ChunkMeta} {l : Lease} : f ∈ s.finds →
      f.phase = .decide → s.chunk = some m → m.lease = some l → m.isValid cfg s.now = true →
      Moves cfg s (.findStep f copied)
        { s.toCore with known := s.known ++ [⟨f.path, f.index, m.version, l.primary⟩] }
  | expire {action : Action} {m : ChunkMeta} {l : Lease} : s.chunk = some m → m.lease = some l →
      l.expiry + cfg.leaseClockSkewMargin < s.now →
      Moves cfg s action { s.toCore with chunk := some { m with lease := none } }
  -- `GrantSerialized`
  | startGrant {action : Action} {client : Option (Str × Nat)} : s.grant = none →
      Moves cfg s action { s.toCore with grant := some { client } }
  | prepareFailed {g : GrantCall} : s.grant = some g → g.phase = .preparing →
      Moves cfg s .grantStep { s.toCore with grant := some { g with phase := .clearing } }
  | prepare {g : GrantCall} {m m' : ChunkMeta} {attempt : Attempt} : s.grant = some g →
      g.phase = .preparing → s.chunk = some m →
      m.prepareLocked cfg s.alive = some (attempt, m') →
      Moves cfg s .grantStep
        { s.toCore with
          chunk := some m'
          grant := some { g with phase := .resolving attempt attempt.secondaries [] } }
  | resolve {g : GrantCall} {attempt : Attempt} {id : ServerId} {todo list : List ServerId} :
      s.grant = some g → g.phase = .resolving attempt (id :: todo) list →
      Moves cfg s .grantStep
        { s.toCore with
          grant := some { g with
            phase := .resolving attempt todo (if s.alive id then list ++ [id] else list) } }
  | send {g : GrantCall} {attempt : Attempt} {list : List ServerId} : s.grant = some g →
      g.phase = .resolving attempt [] list →
      Moves cfg s .grantStep
        { s.toCore.send (bodies attempt list) with
          grant := some { g with phase := .waiting attempt list s.number } }
  | loseChunk {g : GrantCall} {attempt : Attempt} {list : List ServerId} {number : Nat} :
      s.grant = some g → g.phase = .waiting attempt list number → s.chunk = none →
      Moves cfg s .grantStep
        { s.toCore with
          grant := some { g with phase := .returning none }
          forgotten := s.forgotten ++ s.lost cfg attempt number }
  | failRound {g : GrantCall} {attempt : Attempt} {list : List ServerId} {number : Nat}
      {m : ChunkMeta} {locations : Std.ExtTreeMap ServerId TimePoint} : s.grant = some g →
      g.phase = .waiting attempt list number → s.chunk = some m →
      (∀ server, server ∈ locations → server ∈ m.locations) →
      Moves cfg s .grantStep
        { s.toCore with
          chunk := some { m with locations }
          grant := some { g with round := g.round + 1, phase := .preparing }
          forgotten := s.forgotten ++ s.lost cfg attempt number }
  | commit {g : GrantCall} {attempt : Attempt} {list : List ServerId} {number : Nat} {m : ChunkMeta} :
      s.grant = some g → g.phase = .waiting attempt list number → s.chunk = some m →
      (∀ id ∈ members attempt, s.succeeded number id = true) →
      Moves cfg s .grantStep
        { s.toCore with
          chunk := some (m.commit cfg s.now attempt)
          grant := some { g with
            phase := .returning (some (attempt, (m.commit cfg s.now attempt).version)) } }
  | clear {g : GrantCall} : s.grant = some g → g.phase = .clearing →
      Moves cfg s .grantStep
        { s.toCore with
          chunk := s.chunk.map fun m => { m with granting := false }
          grant := some { g with phase := .returning none } }
  | return_ {g : GrantCall} {attempt : Option (Attempt × Nat)} : s.grant = some g →
      g.phase = .returning attempt →
      Moves cfg s .grantStep
        { s.toCore with grant := none, known := s.known ++ granted g attempt }
  -- `Revoke` and `Snapshot`
  | revoke {snapshot : Option Snapshot} {unreachable : Bool} {m : ChunkMeta} {l : Lease} :
      s.chunk = some m → m.lease = some l → s.now ≤ l.expiry + cfg.leaseClockSkewMargin →
      Moves cfg s (.revoke snapshot unreachable)
        { s.toCore.send [(l.primary, .revokeLease)] with
          chunk := some { m with lease := some { l with revoked := true } } }
  | markRevoked {snapshot : Option Snapshot} {unreachable : Bool} {m : ChunkMeta} {l : Lease} :
      s.chunk = some m → m.lease = some l →
      Moves cfg s (.revoke snapshot unreachable)
        { s.toCore with chunk := some { m with lease := some { l with revoked := true } } }
  | endRevoke {c : RevokeCall} {m : ChunkMeta} {l : Lease} : c ∈ s.revokes → s.chunk = some m →
      m.lease = some l → l.primary = c.primary →
      Moves cfg s (.endRevoke c)
        { s.toCore with
          chunk := some { m with lease := none }
          forgotten := s.forgotten ++ s.dropped l }
  | snapshotFinish {t : Snapshot} {until_ : TimePoint} {chunk : Option ChunkMeta} :
      chunk = s.chunk.map (fun m =>
        { m with refcount := m.refcount + (copiedRefs t s.refs).length }) →
      Moves cfg s (.snapshotFinish t until_)
        { s.toCore with
          refs := s.refs ++ copiedRefs t s.refs
          history := s.history ++ [.snapshotOk t.source t.target]
          chunk }
  | snapshotReset {t : Snapshot} {until_ : TimePoint} {m : ChunkMeta} {l : Lease} :
      s.chunk = some m → m.lease = some l →
      Moves cfg s (.snapshotFinish t until_)
        { s.toCore with
          refs := s.refs ++ copiedRefs t s.refs
          history := s.history ++ [.snapshotOk t.source t.target]
          chunk := some { m with
            refcount := m.refcount + (copiedRefs t s.refs).length, lease := none }
          forgotten := s.forgotten ++ s.dropped l }

section
variable {cfg : Config} {s s' : Cluster}

theorem mutate_moves {action : Action} {group : Group} (mutates : action.isMutation = true)
    (keeps : Group.Keeps s.group group) : Moves cfg s action { s.toCore with group } := by
  have moves : Moves cfg s action { s.toCore with group, history := s.history ++ [] } :=
    .mutate mutates keeps (by simp)
  rwa [List.append_nil] at moves

theorem advance_moves {io : Io} {server : ServerId} (taken : s.advance cfg io server = some s') :
    Moves cfg s (.advance io server) s'.toCore := by
  obtain ⟨group, advanced, rfl⟩ := Option.map_eq_some_iff.mp taken
  refine .mutate rfl (Group.advance_keeps advanced) ?_
  cases storeCall cfg io s server <;> simp [Event.isStored]

theorem executeVersion_moves {io : Io} {q : Request} {data : Bytes} {half : Half}
    (pending : q ∈ s.requests) (of : q.half cfg = some half) :
    Moves cfg s (.execute io q data)
      (executeVersion io { s with requests := s.requests.erase q } q half).toCore := by
  have notCreate : ∀ ok, ok = false → (ok = true → ∃ version, q.body = .createChunk version) := by
    rintro _ rfl h
    cases h
  unfold executeVersion
  rcases Replica.setVersion_cases io (s.replica q.target) half.version half with
    ⟨code, failed, same⟩ | ⟨entry, found, _, same⟩
  · have same' : (Core.replica { s with requests := s.requests.erase q }.toCore q.target).setVersion io
        half.version half = (code, s.replica q.target) := same
    rw [same']
    have unchanged : s.group.setReplica q.target (s.replica q.target) = s.group := by
      simp [Group.setReplica, Core.replica]
    cases code with
    | ok => exact absurd rfl failed
    | _ =>
        simp only [answer, setReplica, unchanged]
        exact .refuse pending (notCreate false rfl)
  · have same' : (Core.replica { s with requests := s.requests.erase q }.toCore q.target).setVersion io
        half.version half = _ := same
    rw [same']
    exact .raise pending of found

theorem execute_moves {io : Io} {q : Request} {data : Bytes}
    (taken : s.execute cfg io q data = some s') : Moves cfg s (.execute io q data) s'.toCore := by
  unfold execute at taken
  split at taken
  case isFalse => cases taken
  case isTrue pending =>
    cases body : q.body with
    | grantLease version secondaries =>
        simp only [body, Option.some.injEq] at taken
        subst taken
        exact executeVersion_moves pending (by simp [Request.half, body])
    | updateVersion version =>
        simp only [body, Option.some.injEq] at taken
        subst taken
        exact executeVersion_moves pending (by simp [Request.half, body])
    | revokeLease =>
        simp only [body, Option.some.injEq] at taken
        subst taken
        exact .revokeLease pending body
    | createChunk version =>
        simp only [body] at taken
        split at taken
        case isFalse =>
          cases taken
          exact .refuse pending (by simp)
        case isTrue =>
          cases taken
          cases found : (s.replica q.target).entry with
          | none =>
              have fresh : (s.replica q.target).createChunk version data =
                  (.ok, { s.replica q.target with entry := some { version, data } }) := by
                simp [Replica.createChunk, found]
              have fresh' : (Core.replica { s with requests := s.requests.erase q }.toCore
                q.target).createChunk version data = _ := fresh
              rw [fresh']
              exact .createChunk pending body found
          | some entry =>
              have there : (s.replica q.target).createChunk version data =
                  (if entry.version = version then .ok else .failed, s.replica q.target) := by
                simp [Replica.createChunk, found]
              have there' : (Core.replica { s with requests := s.requests.erase q }.toCore
                q.target).createChunk version data = _ := there
              have unchanged : s.group.setReplica q.target (s.replica q.target) = s.group := by
                simp [Group.setReplica, Core.replica]
              rw [there']
              simp only [answer, setReplica, unchanged]
              exact .refuse pending fun _ => ⟨version, body⟩

theorem complete_moves {server : ServerId} {half : Half}
    (taken : s.complete cfg server half = some s') :
    Moves cfg s (.complete server half) s'.toCore := by
  unfold complete at taken
  split at taken
  case isFalse => cases taken
  case isTrue pending =>
    cases half with
    | grant version lease secondaries number =>
        cases taken
        exact .grantLease pending
    | update version number =>
        cases taken
        exact .updateVersion pending

theorem compose_moves {server : ServerId} (taken : s.compose server = some s') :
    Moves cfg s (.compose server) s'.toCore := by
  unfold compose at taken
  cases sender : s.senders server with
  | none =>
      simp only [sender, Option.some.injEq] at taken
      subst taken
      exact .list sender
  | some state =>
      cases state with
      | listed version =>
          simp only [sender, Option.some.injEq] at taken
          subst taken
          exact .ask sender
      | asked version extend =>
          simp only [sender, Option.some.injEq] at taken
          subst taken
          exact .sendBeat sender
      | _ => simp [sender] at taken

theorem obey_moves {server : ServerId} (taken : s.obey cfg server = some s') :
    Moves cfg s (.obey server) s'.toCore := by
  unfold obey at taken
  cases sender : s.senders server with
  | none => simp [sender] at taken
  | some state =>
      cases state with
      | answered a =>
          cases delete : a.delete with
          | true =>
              simp only [sender, delete, if_true, Option.some.injEq] at taken
              subst taken
              exact .obeyRevoke sender delete
          | false =>
              simp only [sender, delete, Bool.false_eq_true, if_false, Option.some.injEq] at taken
              subst taken
              exact .obeySkip sender
      | removing a =>
          simp only [sender, Option.some.injEq] at taken
          subst taken
          cases found : (s.replica server).entry with
          | none =>
              simp only [List.append_nil]
              exact .removeNothing sender found
          | some entry => exact .remove sender found
      | extending a =>
          cases extended : a.extended with
          | true =>
              simp only [sender, extended, if_true, Option.some.injEq] at taken
              subst taken
              exact .extend sender extended
          | false =>
              simp only [sender, extended, Bool.false_eq_true, if_false, Option.some.injEq] at taken
              subst taken
              exact .obeyed sender
      | _ => simp [sender] at taken

theorem heartBeat_moves {b : Beat} {time : TimePoint}
    (taken : s.heartBeat cfg b time = some s') : Moves cfg s (.heartBeat b time) s'.toCore := by
  unfold heartBeat at taken
  split at taken
  case isFalse => cases taken
  case isTrue pending =>
    cases taken
    obtain chunk | ⟨m, chunk⟩ := Option.eq_none_or_eq_some s.chunk
    · have unknown : ChunkMeta.heartBeat cfg time b.server b.version b.corrupt b.extend s.chunk =
          { chunk := s.chunk, delete := b.version.isSome || b.corrupt } := by
        rw [chunk]
        rfl
      rw [unknown]
      exact .heartBeatUnknown pending chunk
    · obtain ⟨m', result, follows, raised, delete, lease⟩ := ChunkMeta.heartBeat_cases
        cfg time b.server m b.version b.corrupt b.extend
      rw [← chunk] at result delete lease
      rw [result]
      rcases lease with ⟨extended, lease⟩ | ⟨extended, extend, l, found, unrevoked, fresh, primary, lease⟩
      · rw [extended]
        exact .heartBeat pending chunk follows lease raised delete
      · rw [extended]
        exact .heartBeatExtend pending chunk follows found extend unrevoked fresh primary lease raised
          delete

theorem foldl_sweep (cfg : Config) (time : TimePoint) (dead : List ServerId) (due : Bool)
    (m : ChunkMeta) :
    ∃ locations, (∀ server, server ∈ locations → server ∈ m.locations) ∧
      (dead.foldl (fun (regrant, m) server =>
        let (due, m) := m.sweep cfg time server
        (regrant || due, m)) (due, m)).2 = { m with locations } := by
  induction dead generalizing due m with
  | nil => exact ⟨m.locations, fun _ => id, rfl⟩
  | cons server rest ih =>
      obtain ⟨locations, sub, same⟩ := ih (due || (m.sweep cfg time server).1) (m.sweep cfg time server).2
      have one : ∃ locations, (∀ other, other ∈ locations → other ∈ m.locations) ∧
          (m.sweep cfg time server).2 = { m with locations } := by
        unfold ChunkMeta.sweep
        split
        · refine ⟨m.locations.erase server, fun other member => ?_, rfl⟩
          exact Std.ExtTreeMap.mem_of_mem_erase member
        · exact ⟨m.locations, fun _ => id, rfl⟩
      obtain ⟨kept, sub', same'⟩ := one
      refine ⟨locations, fun other member => ?_, ?_⟩
      · have inner := sub other member
        rw [same'] at inner
        exact sub' other inner
      · rw [List.foldl_cons]
        refine same.trans ?_
        rw [same']

theorem sweepLocations_moves (taken : s.sweepLocations cfg = some s') :
    Moves cfg s .sweepLocations s'.toCore := by
  unfold sweepLocations at taken
  cases sweeping : s.sweeping with
  | none => simp [sweeping] at taken
  | some found =>
      obtain ⟨time, dead⟩ := found
      cases chunk : s.chunk with
      | none =>
          simp only [sweeping, chunk, Option.some.injEq] at taken
          subst taken
          exact .still
      | some m =>
          simp only [sweeping, chunk, Option.some.injEq] at taken
          subst taken
          obtain ⟨locations, sub, same⟩ := foldl_sweep cfg time dead false m
          simp only [same]
          exact .sweep chunk sub

theorem foldl_addLocation (servers : List ServerId) (time : TimePoint) (m : ChunkMeta) :
    ∃ locations, servers.foldl (fun m id => m.addLocation id time) m = { m with locations } := by
  induction servers generalizing m with
  | nil => exact ⟨m.locations, rfl⟩
  | cons server rest ih => exact ih (m.addLocation server time)

theorem endCreate_moves (taken : s.endCreate cfg = some s') : Moves cfg s .endCreate s'.toCore := by
  unfold endCreate at taken
  split at taken
  case h_2 => cases taken
  case h_1 c m creating chunk =>
    split at taken
    case isFalse => cases taken
    case isTrue =>
      dsimp only at taken
      split at taken <;> cases taken
      · exact .createFailed creating
      · obtain ⟨locations, same⟩ := foldl_addLocation
          (c.targets.filter (s.succeeded c.number)) s.now m
        simp only [same]
        exact .created creating chunk

theorem findStep_moves {f : Find} {copied : Bool} (taken : s.findStep cfg f copied = some s') :
    Moves cfg s (.findStep f copied) s'.toCore := by
  unfold findStep at taken
  split at taken
  case isFalse => cases taken
  case isTrue member =>
    split at taken
    case h_1 m _ chunk =>
      split at taken <;> cases taken <;> exact .still
    case h_2 m _ chunk =>
      split at taken
      · cases taken
      · split at taken <;> cases taken <;> exact .still
    case h_3 m _ chunk =>
      split at taken <;> cases taken
      case isTrue both => exact .copyOnWrite chunk both.2
      case isFalse => exact .still
    case h_4 m phase chunk =>
      cases lease : m.lease with
      | none =>
          simp only [lease, Option.some.injEq] at taken
          subst taken
          exact .still
      | some l =>
          simp only [lease] at taken
          split at taken
          case isTrue valid =>
            cases taken
            exact .tell member phase chunk lease valid
          case isFalse invalid =>
            split at taken
            case isTrue =>
              cases taken
              exact .still
            case isFalse notPending =>
              cases taken
              refine .expire chunk lease ?_
              by_contra late
              have fresh : s.now ≤ l.expiry + cfg.leaseClockSkewMargin := not_lt.mp late
              cases revoked : l.revoked <;>
                simp_all [ChunkMeta.isValid, ChunkMeta.isPendingExpiry]
    case h_5 => split at taken <;> cases taken <;> exact .still
    case h_6 =>
      split at taken
      case isFalse => cases taken
      case isTrue free =>
        cases taken
        exact .startGrant free
    case h_7 =>
      cases taken
      exact .still

theorem prepare_moves {g : GrantCall} (grant : s.grant = some g) (phase : g.phase = .preparing) :
    Moves cfg s .grantStep (s.prepare cfg g).toCore := by
  unfold prepare
  split
  case isFalse => exact .prepareFailed grant phase
  case isTrue =>
    split
    case h_1 => exact .prepareFailed grant phase
    case h_2 attempt m found =>
      obtain ⟨m', chunk, prepared⟩ := Option.bind_eq_some_iff.mp found
      exact .prepare grant phase chunk prepared

theorem endRound_moves {g : GrantCall} {attempt : Attempt} {list : List ServerId} {number : Nat}
    (grant : s.grant = some g) (phase : g.phase = .waiting attempt list number) :
    Moves cfg s .grantStep (s.endRound cfg g attempt number).toCore := by
  unfold endRound
  split
  case h_1 chunk => exact .loseChunk grant phase chunk
  case h_2 m chunk =>
    dsimp only
    split
    case isTrue =>
      obtain ⟨locations, sub, same⟩ := ChunkMeta.foldl_removeLocation
        ((members attempt).filter fun id => !s.succeeded number id) m
      simp only [same]
      exact .failRound grant phase chunk sub
    case isFalse noFailure =>
      refine .commit grant phase chunk fun id member => ?_
      by_contra failed
      have isFailed : id ∈ (members attempt).filter fun id => !s.succeeded number id :=
        List.mem_filter.mpr ⟨member, by simpa using failed⟩
      exact noFailure (List.ne_nil_of_mem isFailed)

theorem grantStep_moves (taken : s.grantStep cfg = some s') : Moves cfg s .grantStep s'.toCore := by
  unfold grantStep at taken
  cases grant : s.grant with
  | none => simp [grant] at taken
  | some g =>
      simp only [grant] at taken
      cases phase : g.phase with
      | preparing =>
          simp only [phase, Option.some.injEq] at taken
          subst taken
          exact prepare_moves grant phase
      | resolving attempt todo list =>
          cases todo with
          | nil =>
              simp only [phase, Option.some.injEq] at taken
              subst taken
              exact .send grant phase
          | cons id todo =>
              simp only [phase, Option.some.injEq] at taken
              subst taken
              exact .resolve grant phase
      | waiting attempt list number =>
          simp only [phase] at taken
          split at taken <;> cases taken
          exact endRound_moves grant phase
      | clearing =>
          simp only [phase, Option.some.injEq] at taken
          subst taken
          exact .clear grant phase
      | returning attempt =>
          simp only [phase, Option.some.injEq] at taken
          subst taken
          exact .return_ grant phase

@[simp] theorem park_core (snapshot : Option Snapshot) (until_ : TimePoint) :
    (s.park snapshot until_).toCore = s.toCore := by
  cases snapshot <;> rfl

theorem revoke_moves {snapshot : Option Snapshot} {unreachable : Bool}
    (taken : s.revoke cfg snapshot unreachable = some s') :
    Moves cfg s (.revoke snapshot unreachable) s'.toCore := by
  unfold revoke at taken
  split at taken
  case isFalse => cases taken
  case isTrue =>
    dsimp only at taken
    split at taken
    case h_1 =>
      cases taken
      rw [park_core]
      exact .still
    case h_2 m chunk =>
      split at taken
      case h_1 m' marked =>
        cases taken
        rw [park_core]
        unfold ChunkMeta.revokeLocked at marked
        split at marked
        case h_1 =>
          cases marked
          have same : { s.toCore with chunk := some m } = s.toCore := by rw [← chunk]
          have still : Moves cfg s (.revoke snapshot unreachable)
              { s.toCore with chunk := some m } := by
            rw [same]
            exact .still
          exact still
        case h_2 l lease =>
          split at marked <;> cases marked
          case isTrue late => exact .expire chunk lease late
      case h_2 l m' marked =>
        unfold ChunkMeta.revokeLocked at marked
        split at marked
        case h_1 => cases marked
        case h_2 _ lease =>
          split at marked <;> cases marked
          case isFalse fresh =>
            split at taken <;> cases taken
            · rw [park_core]
              exact .markRevoked chunk lease
            · exact .revoke chunk lease (not_lt.mp fresh)

theorem endRevoke_moves {c : RevokeCall} (taken : s.endRevoke cfg c = some s') :
    Moves cfg s (.endRevoke c) s'.toCore := by
  unfold endRevoke at taken
  split at taken
  case isFalse => cases taken
  case isTrue both =>
    dsimp only at taken
    split at taken
    case h_1 =>
      cases taken
      rw [park_core]
      exact .still
    case h_2 m chunk =>
      split at taken
      case h_1 m' l _ acked lease =>
        cases taken
        rw [park_core]
        simp only [ChunkMeta.revokeAcked, lease] at acked
        by_cases same : l.primary = c.primary
        · rw [if_pos same] at acked
          cases acked
          exact .endRevoke both.1 chunk lease same
        · rw [if_neg same] at acked
          cases acked
      case h_2 =>
        cases taken
        rw [park_core]
        exact .still

theorem snapshotFinish_moves {t : Snapshot} {until_ : TimePoint}
    (taken : s.snapshotFinish cfg t until_ = some s') :
    Moves cfg s (.snapshotFinish t until_) s'.toCore := by
  unfold snapshotFinish at taken
  split at taken
  case isFalse => cases taken
  case isTrue =>
    dsimp only at taken
    split at taken
    case h_1 chunk =>
      cases taken
      exact .snapshotFinish (by rw [chunk]; rfl)
    case h_2 m chunk =>
      split at taken
      case h_1 =>
        cases taken
        exact .snapshotFinish (by rw [chunk]; rfl)
      case h_2 l lease =>
        split at taken <;> cases taken
        · exact .snapshotFinish (by rw [chunk]; rfl)
        · exact .snapshotReset chunk lease

/-- The inversion of `step` that the invariants use. -/
theorem step_moves {action : Action} (taken : step cfg s action = some s') :
    Moves cfg s action s'.toCore := by
  cases action with
  | tick elapsed =>
      cases taken
      exact .tick
  | push server key data =>
      cases taken
      exact mutate_moves rfl (Group.push_keeps key data)
  | client k op =>
      simp only [step, client, Option.ite_none_right_eq_some, Option.map_eq_some_iff] at taken
      obtain ⟨_, group, started, rfl⟩ := taken
      exact mutate_moves rfl (Group.startClient_keeps started)
  | deliver m =>
      obtain ⟨group, delivered, rfl⟩ := Option.map_eq_some_iff.mp taken
      exact mutate_moves rfl (Group.deliver_keeps delivered)
  | advance io server => exact advance_moves taken
  | acceptForward reply =>
      obtain ⟨group, accepted, rfl⟩ := Option.map_eq_some_iff.mp taken
      exact mutate_moves rfl (Group.accept_keeps accepted)
  | timeoutForward call secondary =>
      obtain ⟨group, ended, rfl⟩ := Option.map_eq_some_iff.mp taken
      exact mutate_moves rfl (Group.timeout_keeps ended)
  | finish server =>
      obtain ⟨group, finished, rfl⟩ := Option.map_eq_some_iff.mp taken
      exact mutate_moves rfl (Group.finish_keeps finished)
  | markCorrupt server =>
      simp only [step, Option.ite_none_right_eq_some, Option.some.injEq] at taken
      obtain ⟨_, rfl⟩ := taken
      exact .markCorrupt
  | execute io q data => exact execute_moves taken
  | complete server half => exact complete_moves taken
  | accept a =>
      simp only [step, accept, Option.ite_none_right_eq_some, Option.some.injEq] at taken
      obtain ⟨⟨member, opened⟩, rfl⟩ := taken
      exact .accept member opened
  | timeout number target =>
      simp only [step, timeout, Option.ite_none_right_eq_some, Option.some.injEq] at taken
      obtain ⟨⟨old, opened⟩, rfl⟩ := taken
      exact .timeout old opened
  | compose server => exact compose_moves taken
  | receive a =>
      simp only [step, receive, Option.ite_none_right_eq_some, Option.some.injEq] at taken
      obtain ⟨⟨member, sender⟩, rfl⟩ := taken
      exact .receive member sender
  | giveUp server =>
      simp only [step, giveUp] at taken
      split at taken <;> cases taken
      exact .giveUp
  | obey server => exact obey_moves taken
  | touch b =>
      simp only [step, touch, Option.ite_none_right_eq_some, Option.some.injEq] at taken
      obtain ⟨member, rfl⟩ := taken
      exact .touch member
  | heartBeat b time => exact heartBeat_moves taken
  | sweep =>
      simp only [step, sweep, Option.ite_none_right_eq_some, Option.some.injEq] at taken
      obtain ⟨_, rfl⟩ := taken
      exact .still
  | sweepLocations => exact sweepLocations_moves taken
  | create path index targets copy =>
      simp only [step, create, Option.ite_none_right_eq_some, Option.some.injEq] at taken
      obtain ⟨⟨fresh, distinct⟩, rfl⟩ := taken
      exact .create fresh distinct
  | endCreate => exact endCreate_moves taken
  | dropChunk =>
      simp only [step, dropChunk] at taken
      split at taken
      case h_2 => cases taken
      case h_1 m chunk =>
        split at taken <;> cases taken
        case isTrue unused =>
          exact .dropChunk chunk unused.1 unused.2
  | removeFile path =>
      simp only [step, removeFile, Option.ite_none_right_eq_some, Option.some.injEq] at taken
      obtain ⟨_, rfl⟩ := taken
      exact .removeFile
  | find path index =>
      simp only [step, find, Option.ite_none_right_eq_some, Option.some.injEq] at taken
      obtain ⟨_, rfl⟩ := taken
      exact .still
  | findStep f copied => exact findStep_moves taken
  | regrant =>
      simp only [step, regrant, Option.ite_none_right_eq_some] at taken
      obtain ⟨⟨_, free⟩, taken⟩ := taken
      split at taken <;> cases taken
      · exact .startGrant free
      · exact .still
  | grantStep => exact grantStep_moves taken
  | revoke snapshot unreachable => exact revoke_moves taken
  | endRevoke c => exact endRevoke_moves taken
  | snapshot t =>
      simp only [step, snapshot, Option.ite_none_right_eq_some] at taken
      obtain ⟨_, taken⟩ := taken
      split at taken <;> cases taken <;> exact .still
  | snapshotFinish t until_ => exact snapshotFinish_moves taken

/-- The version in the table never goes down, and a chunk that is gone does not come back. -/
theorem Moves.version_le {action : Action} {core : Core} (moves : Moves cfg s action core) :
    (s.allocated = true → core.allocated = true) ∧
      ∀ m', core.chunk = some m' → (∃ m, s.chunk = some m ∧ m.version ≤ m'.version) ∨
        (s.allocated = false ∧ core.allocated = true ∧ m'.version = 1) := by
  have same : ∀ m', s.chunk = some m' → (∃ m, s.chunk = some m ∧ m.version ≤ m'.version) ∨
      (s.allocated = false ∧ core.allocated = true ∧ m'.version = 1) := fun m' h => .inl ⟨m', h, le_rfl⟩
  have moved : ∀ {m₁ m₂ : ChunkMeta}, s.chunk = some m₁ → m₂.version = m₁.version →
      ∀ m', some m₂ = some m' → (∃ m, s.chunk = some m ∧ m.version ≤ m'.version) ∨
        (s.allocated = false ∧ core.allocated = true ∧ m'.version = 1) :=
    fun chunk version m' h => .inl ⟨_, chunk, Option.some.inj h ▸ version.ge⟩
  have mapped : ∀ {f : ChunkMeta → ChunkMeta}, (∀ m, (f m).version = m.version) →
      ∀ m', s.chunk.map f = some m' → (∃ m, s.chunk = some m ∧ m.version ≤ m'.version) ∨
        (s.allocated = false ∧ core.allocated = true ∧ m'.version = 1) := by
    intro f version m' h
    obtain ⟨m, chunk, rfl⟩ := Option.map_eq_some_iff.mp h
    exact .inl ⟨m, chunk, (version m).ge⟩
  cases moves with
  | create fresh => exact ⟨fun _ => rfl, fun m' h => .inr ⟨fresh, rfl, by cases h; rfl⟩⟩
  | heartBeat _ chunk follows =>
      exact ⟨id, fun m' h => .inl ⟨_, chunk, Option.some.inj h ▸ follows.version⟩⟩
  | heartBeatExtend _ chunk follows =>
      exact ⟨id, fun m' h => .inl ⟨_, chunk, Option.some.inj h ▸ follows.version⟩⟩
  | commit _ _ chunk =>
      refine ⟨id, fun m' h => .inl ⟨_, chunk, ?_⟩⟩
      cases h
      exact Nat.le_max_left _ _
  | createFailed => exact ⟨id, nofun⟩
  | dropChunk => exact ⟨id, nofun⟩
  | removeFile => exact ⟨id, mapped fun _ => rfl⟩
  | clear => exact ⟨id, mapped fun _ => rfl⟩
  | snapshotFinish chunk => exact ⟨id, chunk ▸ mapped fun _ => rfl⟩
  | sweep chunk => exact ⟨id, moved chunk rfl⟩
  | created _ chunk => exact ⟨id, moved chunk rfl⟩
  | copyOnWrite chunk => exact ⟨id, moved chunk rfl⟩
  | expire chunk => exact ⟨id, moved chunk rfl⟩
  | prepare _ _ chunk prepared =>
      obtain ⟨rfl, _⟩ := ChunkMeta.prepareLocked_eq prepared
      exact ⟨id, moved chunk rfl⟩
  | failRound _ _ chunk => exact ⟨id, moved chunk rfl⟩
  | revoke chunk => exact ⟨id, moved chunk rfl⟩
  | markRevoked chunk => exact ⟨id, moved chunk rfl⟩
  | endRevoke _ chunk => exact ⟨id, moved chunk rfl⟩
  | snapshotReset chunk => exact ⟨id, moved chunk rfl⟩
  | _ => exact ⟨id, same⟩

end

end Gfs.Cluster
