import Gfs.Chunkserver.Appends

/-!
# Record append is atomic under one lease

`Session` adds to the chunkservers the answers that clients have got, each with the bytes that every
copy of the chunk had at that moment. A mutation may still be executed after the call of its sender
has ended.
-/

namespace Gfs.Chunkserver.Appends
open Lib.Transition

/-- An answer to a client; `stage` is how far its handler had come. -/
structure Answer where
  op : MutationOp
  stage : Stage
  response : Response
  chunks : ServerId → Option Bytes

structure Session where
  group : Group
  answered : List Answer := []

def chunks (g : Group) (server : ServerId) : Option Bytes :=
  (g.replicas server).entry.map (·.data)

def responses (cfg : Config) (g : Group) : Order.Action → List (MutationOp × Stage × Response)
  | .client server op =>
      match (g.replicas server).start ⟨server, g.calls⟩ op with
      | some out => out.response.toList.map (op, .locked, ·)
      | none => []
  | .advance io server =>
      match (g.replicas server).frame, (g.replicas server).advance cfg g.now io with
      | some f, some out => if f.op.isClient then out.response.toList.map (f.op, f.stage, ·) else []
      | _, _ => []
  | .finish server =>
      match (g.replicas server).frame with
      | some ⟨origin, op, .forwarding secondaries request⟩ =>
          [(op, .forwarding secondaries request, Replica.afterForward request
            (secondaries.all fun c => ⟨origin.call, c, true⟩ ∈ g.ended) op)]
      | _ => []
  | _ => []

def step (cfg : Config) (s : Session) (action : Order.Action) : Option Session :=
  (Order.step cfg s.group action).map fun g =>
    { group := g
      answered := s.answered ++ (responses cfg s.group action).map fun (op, stage, response) =>
        { op, stage, response, chunks := chunks g } }

def serial : Stage → Nat
  | .numbered _ request _ | .forwarding _ request => request.serial
  | _ => 0

def Answer.Appended (a : Answer) (key : BufferKey) : Prop :=
  (∃ version, a.op = .append version key) ∧ a.response.code = .ok

section
variable (cfg : Config) (record : BufferKey → Bytes) (primary : ServerId)
  (secondaries : List ServerId)

/-- `primary` has the lease, if any chunkserver has one, and what was pushed for a key is its record. -/
structure Initial (s : Session) : Prop where
  idle : ∀ server, (s.group.replicas server).frame = none
  requests : s.group.requests = []
  replies : s.group.replies = []
  ended : s.group.ended = []
  answered : s.answered = []
  held : ∀ server, ∀ slot ∈ (s.group.replicas server).slot, slot.held = true →
    server = primary ∧ slot.secondaries = secondaries
  pushed : ∀ server, (s.group.replicas server).buffer.Pushed record
  lengths : ∀ server, ∀ entry ∈ (s.group.replicas server).entry, entry.data.length < 2 ^ 64
  chunkSize : cfg.chunkSize < 2 ^ 64

/-- The steps during the lease. -/
def During : Order.Action → Prop
  | .push _ key data => data = record key ∧ data.length < 2 ^ 63
  | .setVersion _ _ _ | .complete _ _ | .remove _ => False
  | _ => True

/-- What the answers say is so: the records of the appended are apart and in the order of their serial
numbers, inside the chunk, and on every copy; a chunk that is full is full on every copy. -/
structure Atomic (answered : List Answer) : Prop where
  ordered : answered.Pairwise fun first second => ∀ key key', first.Appended key →
    second.Appended key' → serial first.stage < serial second.stage ∧
      first.response.offset + (record key).length ≤ second.response.offset
  inside : ∀ a ∈ answered, ∀ key, a.Appended key →
    a.response.offset + (record key).length ≤ cfg.chunkSize
  stands : ∀ a ∈ answered, ∀ key, a.Appended key → ∀ server ∈ primary :: secondaries,
    ∃ data, a.chunks server = some data ∧ record key <+: data.drop a.response.offset
  full : ∀ a ∈ answered, a.response.code = .retryNextChunk → ∀ server ∈ primary :: secondaries,
    ∃ data, a.chunks server = some data ∧ data.length = cfg.chunkSize

/-! ## What a handler carries -/

structure Numbered (r : Replica) (op : MutationOp) (request : ApplyMutationRequest)
    (data : Bytes) : Prop where
  client : op.isClient = true
  loads : Loads record request data
  key : request.key = op.key
  kind : op.isAppend = false → request.kind = .write
  place : op.isAppend = true → ∀ entry ∈ r.entry, request.offset = entry.data.length
  fits : op.isAppend = true → request.kind = .write →
    u64 (request.offset + (record request.key).length) ≤ cfg.chunkSize

structure Forwards (r : Replica) (op : MutationOp) (request : ApplyMutationRequest) : Prop where
  client : op.isClient = true
  key : request.key = op.key
  kind : op.isAppend = false → request.kind = .write
  done : ∃ entry, r.entry = some entry ∧ Done cfg record request entry.data ∧
    (op.isAppend = true → request.offset ≤ entry.data.length)
  inside : Inside cfg record request
  fits : op.isAppend = true → request.kind = .write →
    request.offset + (record request.key).length ≤ cfg.chunkSize

def Carries (r : Replica) (op : MutationOp) : Stage → Prop
  | .taken _ data => data = record op.key ∧ data.length < 2 ^ 63
  | .placed _ data current => op.isAppend = true ∧ data = record op.key ∧ data.length < 2 ^ 63 ∧
      ∀ entry ∈ r.entry, current = entry.data.length
  | .numbered _ request data => Numbered cfg record r op request data
  | .forwarding _ request => Forwards cfg record r op request
  | _ => True

structure Good (server : ServerId) (r : Replica) : Prop where
  pushed : r.buffer.Pushed record
  held : ∀ slot ∈ r.slot, slot.held = true → server = primary ∧ slot.secondaries = secondaries
  length : ∀ entry ∈ r.entry, entry.data.length < 2 ^ 64
  admitted : ∀ f ∈ r.frame, f.op.isClient = true → f.stage = .locked ∨ f.stage = .versioned ∨
    server = primary ∧ f.stage.secondaries = secondaries
  carries : ∀ f ∈ r.frame, Carries cfg record r f.op f.stage

end

section
variable {cfg : Config} {record : BufferKey → Bytes} {primary server : ServerId}
  {secondaries : List ServerId} {now : TimePoint} {r : Replica} {f : Frame}

theorem Good.frame {r' : Replica} (good : Good cfg record primary secondaries server r)
    (pushed : r'.buffer.Pushed record) (slot : ∀ slot' ∈ r'.slot, slot'.held = true →
      ∃ slot ∈ r.slot, slot.held = true ∧ slot.secondaries = slot'.secondaries)
    (length : ∀ entry ∈ r'.entry, entry.data.length < 2 ^ 64)
    (admitted : ∀ f ∈ r'.frame, f.op.isClient = true → f.stage = .locked ∨ f.stage = .versioned ∨
      server = primary ∧ f.stage.secondaries = secondaries)
    (carries : ∀ f ∈ r'.frame, Carries cfg record r' f.op f.stage) :
    Good cfg record primary secondaries server r' where
  pushed := pushed
  held slot' member held := by
    obtain ⟨old, there, held, same⟩ := slot slot' member held
    exact same ▸ good.held old there held
  length := length
  admitted := admitted
  carries := carries

theorem held_nextSerial {slot : Option Slot} :
    ∀ slot' ∈ some (LeaseTable.nextSerial slot).2, slot'.held = true →
      ∃ old ∈ slot, old.held = true ∧ old.secondaries = slot'.secondaries := by
  rintro slot' ⟨⟩ held
  cases slot with
  | none => cases held
  | some old => exact ⟨old, rfl, held, rfl⟩

theorem Good.next {stage : Stage} {buffer : DataBuffer} {slot : Option Slot}
    (good : Good cfg record primary secondaries server r) (frame : r.frame = some f)
    (next : Replica.Next cfg now r f.op f.stage stage buffer slot) :
    Good cfg record primary secondaries server
      { r with buffer, slot, frame := some ⟨f.origin, f.op, stage⟩ } := by
  have admitted := good.admitted f frame
  have carries := good.carries f frame
  have same : ∀ slot' ∈ r.slot, slot'.held = true →
      ∃ slot ∈ r.slot, slot.held = true ∧ slot.secondaries = slot'.secondaries :=
    fun slot' member held => ⟨slot', member, held, rfl⟩
  obtain ⟨origin, op, stage₀⟩ := f
  dsimp only at admitted carries next
  cases next with
  | version =>
      refine good.frame good.pushed same good.length ?_ ?_
      · rintro f ⟨⟩ -
        exact .inr (.inl rfl)
      · rintro f ⟨⟩
        trivial
  | lease client checked =>
      refine good.frame good.pushed same good.length ?_ ?_
      · rintro f ⟨⟩ -
        obtain ⟨slot, found, held, -, listed⟩ := LeaseTable.check_primary.mp checked
        obtain ⟨here, same⟩ := good.held slot found held
        exact .inr (.inr ⟨here, listed ▸ same⟩)
      · rintro f ⟨⟩
        trivial
  | receive forwarded taken =>
      obtain ⟨is, short, rest⟩ := good.pushed.take taken
      refine good.frame rest same good.length ?_ ?_
      · rintro f ⟨⟩ client
        rw [forwarded] at client
        cases client
      · rintro f ⟨⟩
        exact ⟨is, short⟩
  | size client =>
      refine good.frame good.pushed same good.length ?_ ?_
      · rintro f ⟨⟩ -
        obtain here | here | here := admitted client
        · cases here
        · cases here
        · exact .inr (.inr here)
      · rintro f ⟨⟩
        trivial
  | take client past taken =>
      obtain ⟨is, short, rest⟩ := good.pushed.take taken
      refine good.frame rest same good.length ?_ ?_
      · rintro f ⟨⟩ -
        rcases past with rfl | rfl
        · obtain here | here | here := admitted client
          · cases here
          · cases here
          · exact .inr (.inr here)
        · obtain here | here | here := admitted client
          · cases here
          · cases here
          · exact .inr (.inr here)
      · rintro f ⟨⟩
        exact ⟨is, short⟩
  | length append found =>
      refine good.frame good.pushed same good.length ?_ ?_
      · rintro f ⟨⟩ client
        obtain here | here | here := admitted client
        · cases here
        · cases here
        · exact .inr (.inr here)
      · rintro f ⟨⟩
        refine ⟨append, carries.1, carries.2, fun entry there => ?_⟩
        cases found.symm.trans there
        rfl
  | write other client kind key numbered =>
      refine good.frame good.pushed held_nextSerial good.length ?_ ?_
      · rintro f ⟨⟩ -
        obtain here | here | here := admitted client
        · cases here
        · cases here
        · exact .inr (.inr here)
      · rintro f ⟨⟩
        refine ⟨client, ⟨carries.2, fun _ => key ▸ carries.1⟩, key, fun _ => kind, ?_, ?_⟩
        · intro append
          rw [other] at append
          cases append
        · intro append
          rw [other] at append
          cases append
  | append append key numbered fits =>
      have client : op.isClient = true := by
        cases op with
        | append => rfl
        | _ => cases append
      obtain ⟨-, is, short, place⟩ := carries
      refine good.frame good.pushed held_nextSerial good.length ?_ ?_
      · rintro f ⟨⟩ -
        obtain here | here | here := admitted client
        · cases here
        · cases here
        · exact .inr (.inr here)
      · rintro f ⟨⟩
        refine ⟨client, ⟨short, fun _ => key ▸ is⟩, key, ?_, fun _ => place, fun _ kind => ?_⟩
        · intro other
          rw [append] at other
          cases other
        · have ends := fits kind
          rwa [is, ← key] at ends

theorem Good.idle {entry : Option ChunkEntry} (good : Good cfg record primary secondaries server r)
    (length : ∀ e ∈ entry, e.data.length < 2 ^ 64) :
    Good cfg record primary secondaries server { r with entry, frame := none } :=
  good.frame good.pushed (fun slot' member held => ⟨slot', member, held, rfl⟩) length nofun nofun

theorem length_stored {entry entry' : ChunkEntry} {request : ApplyMutationRequest} {data : Bytes}
    {code : ResultCode} (small : cfg.chunkSize < 2 ^ 64) (length : entry.data.length < 2 ^ 64)
    (stored : ChunkStore.Stored cfg.chunkSize entry.data request data code entry'.data) :
    ∀ e ∈ some entry', e.data.length < 2 ^ 64 := by
  rintro e ⟨⟩
  exact lt_of_le_of_lt stored.length_le (max_lt length small)

theorem Good.forward {io : Io} {list : List ServerId} {request : ApplyMutationRequest} {data : Bytes}
    {entry entry' : ChunkEntry} (good : Good cfg record primary secondaries server r)
    (small : cfg.chunkSize < 2 ^ 64) (frame : r.frame = some f)
    (stage : f.stage = .numbered list request data) (found : r.entry = some entry)
    (applied : ChunkStore.apply cfg.chunkSize io entry ⟨f.origin, request⟩ data = (.ok, entry')) :
    Good cfg record primary secondaries server
      { r with entry := some entry', frame := some ⟨f.origin, f.op, .forwarding list request⟩ } := by
  have carries := good.carries f frame
  rw [stage] at carries
  obtain ⟨client, loads, key, kind, place, fits⟩ := carries
  have stored := ChunkStore.apply_stored loads.1 applied
  have length := good.length entry found
  obtain ⟨done, inside⟩ := Done.of_stored stored loads
  refine good.frame good.pushed (fun slot' member held => ⟨slot', member, held, rfl⟩)
    (length_stored small length stored) ?_ ?_
  · rintro f' ⟨⟩ -
    obtain here | here | here := good.admitted f frame client
    · rw [stage] at here
      cases here
    · rw [stage] at here
      cases here
    · rw [stage] at here
      exact .inr (.inr here)
  · rintro f' ⟨⟩
    refine ⟨client, key, kind, ⟨entry', rfl, done, fun append => ?_⟩, inside, fun append is => ?_⟩
    · rw [place append entry found]
      exact stored.le_length fun _ => .inl (place append entry found).ge
    · have ends := fits append is
      unfold Inside at inside
      simp only [is] at inside
      rcases inside with empty | inside
      · rw [empty, List.length_nil, Nat.add_zero] at ends ⊢
        rwa [u64_of_lt (place append entry found ▸ length)] at ends
      · exact inside

end

/-! ## The invariant -/

/-- The length of the chunk on the primary, without the record that it is forwarding. -/
def floor (r : Replica) : Nat :=
  match r.frame with
  | some ⟨_, .append _ _, .forwarding _ request⟩ => request.offset
  | _ => r.entry.elim 0 (·.data.length)

section
variable (cfg : Config) (record : BufferKey → Bytes) (primary : ServerId)
  (secondaries : List ServerId)

/-- A request that a secondary can still execute: it is the one that the primary is forwarding, or it
ends below what the primary has now. -/
structure Known (g : Group) (origin : Origin) (request : ApplyMutationRequest) : Prop where
  call : origin.call < g.calls
  own : ∀ f ∈ (g.replicas primary).frame, f.op.isClient = true → f.origin.call = origin.call →
    ∃ list, f.stage = .forwarding list request
  below : (∀ f ∈ (g.replicas primary).frame, f.op.isClient = true → f.origin.call ≠ origin.call) →
    Below cfg record request (floor (g.replicas primary))
  pad : request.kind = .pad → ∀ entry ∈ (g.replicas primary).entry,
    entry.data.length ≤ cfg.chunkSize

/-- An answer that says OK is true of the record that the primary is forwarding. -/
structure Told (g : Group) (reply : Reply) : Prop where
  call : reply.call < g.calls
  done : ∀ f ∈ (g.replicas primary).frame, f.op.isClient = true → f.origin.call = reply.call →
    ∃ list request, f.stage = .forwarding list request ∧ (f.op.isAppend = true →
      ∃ entry, (g.replicas reply.secondary).entry = some entry ∧ Done cfg record request entry.data)

/-- The records that were appended end below what the primary has now. -/
structure Past (r : Replica) (a : Answer) : Prop where
  below : ∀ key, a.Appended key → a.response.offset + (record key).length ≤ floor r
  upcoming : ∀ key, a.Appended key → serial a.stage < Order.upcoming r
  current : ∀ key, a.Appended key → ∀ f ∈ r.frame, f.stage.isNumbered = true →
    serial a.stage < serial f.stage

structure Inv (s : Session) : Prop where
  good : ∀ server, Good cfg record primary secondaries server (s.group.replicas server)
  small : cfg.chunkSize < 2 ^ 64
  requests : ∀ m ∈ s.group.requests, Known cfg record primary s.group m.origin m.request
  running : ∀ server origin request stage,
    (s.group.replicas server).frame = some ⟨origin, .apply request, stage⟩ →
      Known cfg record primary s.group origin request
  calls : ∀ f ∈ (s.group.replicas primary).frame, f.op.isClient = true →
    f.origin.call < s.group.calls
  replies : ∀ reply ∈ s.group.replies, reply.ok = true → Told cfg record primary s.group reply
  ended : ∀ reply ∈ s.group.ended, reply.ok = true → reply ∈ s.group.replies
  current : ∀ f ∈ (s.group.replicas primary).frame, f.stage.isNumbered = true →
    serial f.stage < Order.upcoming (s.group.replicas primary)
  past : ∀ a ∈ s.answered, Past record (s.group.replicas primary) a
  atomic : Atomic cfg record primary secondaries s.answered

end

section
variable {cfg : Config} {record : BufferKey → Bytes} {primary server : ServerId}
  {secondaries : List ServerId} {s : Session} {g : Group} {r : Replica} {f : Frame}
  {origin : Origin} {request : ApplyMutationRequest}

theorem Initial.inv (initial : Initial cfg record primary secondaries s) :
    Inv cfg record primary secondaries s where
  good server :=
    { pushed := initial.pushed server
      held := initial.held server
      length := initial.lengths server
      admitted := by
        rw [initial.idle server]
        nofun
      carries := by
        rw [initial.idle server]
        nofun }
  small := initial.chunkSize
  requests := by
    rw [initial.requests]
    nofun
  running server origin request stage := by
    rw [initial.idle server]
    nofun
  calls := by
    rw [initial.idle primary]
    nofun
  replies := by
    rw [initial.replies]
    nofun
  ended := by
    rw [initial.ended]
    nofun
  current := by
    rw [initial.idle primary]
    nofun
  past := by
    rw [initial.answered]
    nofun
  atomic := by
    rw [initial.answered]
    exact ⟨List.Pairwise.nil, nofun, nofun, nofun⟩

theorem floor_idle (idle : ∀ f ∈ r.frame, f.op.isClient = true →
    ∀ list request, f.stage ≠ .forwarding list request) :
    floor r = r.entry.elim 0 (·.data.length) := by
  unfold floor
  split
  · rename_i frame
    exact absurd rfl (idle _ frame rfl _ _)
  · rfl

theorem Known.onward {g' : Group} (known : Known cfg record primary g origin request)
    (idle : ∀ f ∈ (g.replicas primary).frame, f.op.isClient = true →
      ∀ list request, f.stage ≠ .forwarding list request)
    (calls : g.calls ≤ g'.calls)
    (same : ∀ f ∈ (g'.replicas primary).frame, f.op.isClient = true → f.origin.call = g.calls ∨
      ∃ old ∈ (g.replicas primary).frame, old.op.isClient = true ∧
        old.origin.call = f.origin.call)
    (grown : floor (g.replicas primary) ≤ floor (g'.replicas primary))
    (length : ∀ entry' ∈ (g'.replicas primary).entry, ∃ entry ∈ (g.replicas primary).entry,
      entry'.data.length ≤ max entry.data.length cfg.chunkSize) :
    Known cfg record primary g' origin request := by
  have apart : ∀ f ∈ (g.replicas primary).frame, f.op.isClient = true →
      f.origin.call ≠ origin.call := by
    intro f there client eq
    obtain ⟨list, stage⟩ := known.own f there client eq
    exact idle f there client list request stage
  refine ⟨Nat.lt_of_lt_of_le known.call calls, ?_, fun _ => (known.below apart).mono grown, ?_⟩
  · intro f there client eq
    exfalso
    rcases same f there client with fresh | ⟨old, there, client, is⟩
    · have call := known.call
      omega
    · exact apart old there client (is.trans eq)
  · intro pad entry' there
    obtain ⟨entry, old, le⟩ := length entry' there
    exact Nat.le_trans le (max_le (known.pad pad entry old) (Nat.le_refl _))

/-- An answer that a secondary has given before the primary forwards is about another call. -/
theorem Told.onward {g' : Group} {reply : Reply} (told : Told cfg record primary g reply)
    (idle : ∀ f ∈ (g.replicas primary).frame, f.op.isClient = true →
      ∀ list request, f.stage ≠ .forwarding list request)
    (calls : g.calls ≤ g'.calls)
    (same : ∀ f ∈ (g'.replicas primary).frame, f.op.isClient = true → f.origin.call = g.calls ∨
      ∃ old ∈ (g.replicas primary).frame, old.op.isClient = true ∧
        old.origin.call = f.origin.call) : Told cfg record primary g' reply := by
  refine ⟨Nat.lt_of_lt_of_le told.call calls, fun f there client eq => ?_⟩
  exfalso
  rcases same f there client with fresh | ⟨old, there, client, is⟩
  · have call := told.call
    omega
  · obtain ⟨list, request, stage, -⟩ := told.done old there client (is.trans eq)
    exact idle old there client list request stage

theorem Past.onward {r' : Replica} {a : Answer} (past : Past record r a)
    (grown : floor r ≤ floor r') (upcoming : Order.upcoming r ≤ Order.upcoming r')
    (numbered : ∀ f ∈ r'.frame, f.stage.isNumbered = true → serial f.stage = Order.upcoming r ∨
      ∃ old ∈ r.frame, old.stage.isNumbered = true ∧ serial old.stage = serial f.stage) :
    Past record r' a where
  below key appended := Nat.le_trans (past.below key appended) grown
  upcoming key appended := Nat.lt_of_lt_of_le (past.upcoming key appended) upcoming
  current key appended f there is := by
    rcases numbered f there is with new | ⟨old, there, is, same⟩
    · rw [new]
      exact past.upcoming key appended
    · rw [← same]
      exact past.current key appended old there is

theorem Inv.onward {g' : Group} (inv : Inv cfg record primary secondaries s)
    (idle : ∀ f ∈ (s.group.replicas primary).frame, f.op.isClient = true →
      ∀ list request, f.stage ≠ .forwarding list request)
    (is : g' = { s.group.setReplica primary r with calls := g'.calls })
    (calls : s.group.calls ≤ g'.calls)
    (good : Good cfg record primary secondaries primary r)
    (same : ∀ f ∈ r.frame, f.op.isClient = true → f.origin.call = s.group.calls ∧
        s.group.calls < g'.calls ∨
      ∃ old ∈ (s.group.replicas primary).frame, old.op.isClient = true ∧
        old.origin.call = f.origin.call)
    (grown : floor (s.group.replicas primary) ≤ floor r)
    (length : ∀ entry' ∈ r.entry, ∃ entry ∈ (s.group.replicas primary).entry,
      entry'.data.length ≤ max entry.data.length cfg.chunkSize)
    (upcoming : Order.upcoming (s.group.replicas primary) ≤ Order.upcoming r)
    (numbered : ∀ f ∈ r.frame, f.stage.isNumbered = true → serial f.stage < Order.upcoming r ∧
      (serial f.stage = Order.upcoming (s.group.replicas primary) ∨
        ∃ old ∈ (s.group.replicas primary).frame, old.stage.isNumbered = true ∧
          serial old.stage = serial f.stage))
    (running : ∀ origin request stage, r.frame = some ⟨origin, .apply request, stage⟩ →
      Known cfg record primary s.group origin request) :
    Inv cfg record primary secondaries { s with group := g' } := by
  have here : g'.replicas primary = r := by
    rw [is]
    exact Group.setReplica_self
  have there : ∀ {other}, other ≠ primary → g'.replicas other = s.group.replicas other := by
    intro other different
    rw [is]
    exact Group.setReplica_of_ne different
  have same' : ∀ f ∈ (g'.replicas primary).frame, f.op.isClient = true →
      f.origin.call = s.group.calls ∨ ∃ old ∈ (s.group.replicas primary).frame,
        old.op.isClient = true ∧ old.origin.call = f.origin.call := by
    rw [here]
    exact fun f there client => (same f there client).imp_left And.left
  have known : ∀ {origin request}, Known cfg record primary s.group origin request →
      Known cfg record primary g' origin request := fun known =>
    known.onward idle calls same' (by rw [here]; exact grown) (by rw [here]; exact length)
  have requests : g'.requests = s.group.requests := by rw [is]; rfl
  have replies : g'.replies = s.group.replies := by rw [is]; rfl
  have ended : g'.ended = s.group.ended := by rw [is]; rfl
  constructor
  · intro server
    by_cases eq : server = primary
    · subst eq
      dsimp only
      rw [here]
      exact good
    · dsimp only
      rw [there eq]
      exact inv.good server
  · exact inv.small
  · dsimp only
    rw [requests]
    exact fun m member => known (inv.requests m member)
  · intro server origin request stage frame
    by_cases eq : server = primary
    · subst eq
      dsimp only at frame
      rw [here] at frame
      exact known (running origin request stage frame)
    · dsimp only at frame
      rw [there eq] at frame
      exact known (inv.running server origin request stage frame)
  · dsimp only
    rw [here]
    intro f member client
    rcases same f member client with ⟨new, more⟩ | ⟨old, there, client, eq⟩
    · omega
    · exact eq ▸ Nat.lt_of_lt_of_le (inv.calls old there client) calls
  · dsimp only
    rw [replies]
    exact fun reply member ok => (inv.replies reply member ok).onward idle calls same'
  · dsimp only
    rw [ended, replies]
    exact inv.ended
  · dsimp only
    rw [here]
    exact fun f member is => (numbered f member is).1
  · dsimp only
    rw [here]
    exact fun a member => (inv.past a member).onward grown upcoming fun f there is =>
      (numbered f there is).2
  · exact inv.atomic

/-- A step of another chunkserver, or one of the primary that leaves its chunk and its handler alone. -/
theorem Inv.beside (inv : Inv cfg record primary secondaries s)
    (good : Good cfg record primary secondaries server r)
    (aside : server = primary → r.frame = (s.group.replicas primary).frame ∧
      r.entry = (s.group.replicas primary).entry ∧
      Order.upcoming r = Order.upcoming (s.group.replicas primary))
    (running : ∀ origin request stage, r.frame = some ⟨origin, .apply request, stage⟩ →
      Known cfg record primary s.group origin request)
    (kept : ∀ f ∈ (s.group.replicas primary).frame, f.op.isAppend = true →
      ∀ list request entry, f.stage = .forwarding list request →
        (s.group.replicas server).entry = some entry → Done cfg record request entry.data →
        ∃ entry', r.entry = some entry' ∧ Done cfg record request entry'.data) :
    Inv cfg record primary secondaries { s with group := s.group.setReplica server r } := by
  have view : ((s.group.setReplica server r).replicas primary).frame =
        (s.group.replicas primary).frame ∧
      ((s.group.setReplica server r).replicas primary).entry =
        (s.group.replicas primary).entry ∧
      Order.upcoming ((s.group.setReplica server r).replicas primary) =
        Order.upcoming (s.group.replicas primary) := by
    by_cases eq : server = primary
    · subst eq
      rw [Group.setReplica_self]
      exact aside rfl
    · rw [Group.setReplica_of_ne (Ne.symm eq)]
      exact ⟨rfl, rfl, rfl⟩
  obtain ⟨frame, entry, upcoming⟩ := view
  have level : floor ((s.group.setReplica server r).replicas primary) =
      floor (s.group.replicas primary) := by
    unfold floor
    rw [frame, entry]
  have known : ∀ {origin request}, Known cfg record primary s.group origin request →
      Known cfg record primary (s.group.setReplica server r) origin request := by
    rintro origin request ⟨call, own, below, pad⟩
    refine ⟨call, ?_, ?_, ?_⟩
    · rw [frame]
      exact own
    · rw [frame, level]
      exact below
    · rw [entry]
      exact pad
  constructor
  · intro other
    by_cases eq : other = server
    · subst eq
      dsimp only
      rw [Group.setReplica_self]
      exact good
    · dsimp only
      rw [Group.setReplica_of_ne eq]
      exact inv.good other
  · exact inv.small
  · exact fun m member => known (inv.requests m member)
  · intro other origin request stage found
    by_cases eq : other = server
    · subst eq
      dsimp only at found
      rw [Group.setReplica_self] at found
      exact known (running origin request stage found)
    · dsimp only at found
      rw [Group.setReplica_of_ne eq] at found
      exact known (inv.running other origin request stage found)
  · dsimp only
    rw [frame]
    exact inv.calls
  · intro reply member ok
    have told := inv.replies reply member ok
    refine ⟨told.call, ?_⟩
    dsimp only
    rw [frame]
    intro f there client eq
    obtain ⟨list, request, stage, done⟩ := told.done f there client eq
    refine ⟨list, request, stage, fun append => ?_⟩
    obtain ⟨entry, found, done⟩ := done append
    by_cases eq : reply.secondary = server
    · rw [eq] at found ⊢
      rw [Group.setReplica_self]
      exact kept f there append list request entry stage found done
    · rw [Group.setReplica_of_ne eq]
      exact ⟨entry, found, done⟩
  · exact inv.ended
  · dsimp only
    rw [frame, upcoming]
    exact inv.current
  · intro a member
    have past := inv.past a member
    refine ⟨?_, ?_, ?_⟩
    · dsimp only
      rw [level]
      exact past.below
    · dsimp only
      rw [upcoming]
      exact past.upcoming
    · dsimp only
      rw [frame]
      exact past.current
  · exact inv.atomic

theorem Inv.messages {requests : List Forward} {replies ended : List Reply} {applied : List Applied}
    {acked : List Mutation} {now : TimePoint}
    (inv : Inv cfg record primary secondaries s)
    (requested : ∀ m ∈ requests, m ∈ s.group.requests ∨
      Known cfg record primary s.group m.origin m.request)
    (replied : ∀ reply ∈ replies, reply.ok = true →
      reply ∈ s.group.replies ∨ Told cfg record primary s.group reply)
    (more : ∀ reply ∈ s.group.replies, reply ∈ replies)
    (told : ∀ reply ∈ ended, reply.ok = true → reply ∈ s.group.ended ∨ reply ∈ replies) :
    Inv cfg record primary secondaries
      { s with group := { s.group with requests, replies, ended, applied, acked, now } } where
  good := inv.good
  small := inv.small
  requests m member := by
    have known : Known cfg record primary s.group m.origin m.request := by
      rcases requested m member with old | new
      · exact inv.requests m old
      · exact new
    exact ⟨known.call, known.own, known.below, known.pad⟩
  running server origin request stage frame := by
    have known := inv.running server origin request stage frame
    exact ⟨known.call, known.own, known.below, known.pad⟩
  calls := inv.calls
  replies reply member ok := by
    have told : Told cfg record primary s.group reply := by
      rcases replied reply member ok with old | new
      · exact inv.replies reply old ok
      · exact new
    exact ⟨told.call, told.done⟩
  ended reply member ok := by
    rcases told reply member ok with old | new
    · exact more reply (inv.ended reply old ok)
    · exact new
  current := inv.current
  past := inv.past
  atomic := inv.atomic

theorem Inv.answers {answers : List Answer} (inv : Inv cfg record primary secondaries s)
    (past : ∀ a ∈ answers, Past record (s.group.replicas primary) a)
    (atomic : Atomic cfg record primary secondaries answers)
    (after : ∀ old ∈ s.answered, ∀ a ∈ answers, ∀ key key', old.Appended key → a.Appended key' →
      serial old.stage < serial a.stage ∧
        old.response.offset + (record key).length ≤ a.response.offset) :
    Inv cfg record primary secondaries { s with answered := s.answered ++ answers } where
  good := inv.good
  small := inv.small
  requests := inv.requests
  running := inv.running
  calls := inv.calls
  replies := inv.replies
  ended := inv.ended
  current := inv.current
  past a member := by
    rcases List.mem_append.mp member with old | new
    · exact inv.past a old
    · exact past a new
  atomic := by
    constructor
    · exact List.pairwise_append.mpr ⟨inv.atomic.ordered, atomic.ordered, after⟩
    · intro a member
      rcases List.mem_append.mp member with old | new
      · exact inv.atomic.inside a old
      · exact atomic.inside a new
    · intro a member
      rcases List.mem_append.mp member with old | new
      · exact inv.atomic.stands a old
      · exact atomic.stands a new
    · intro a member
      rcases List.mem_append.mp member with old | new
      · exact inv.atomic.full a old
      · exact atomic.full a new

/-- An answer that is neither OK nor `RETRY_NEXT_CHUNK` says nothing. -/
theorem Inv.quiet {answers : List Answer} (inv : Inv cfg record primary secondaries s)
    (quiet : ∀ a ∈ answers, a.response.code ≠ .ok ∧ a.response.code ≠ .retryNextChunk) :
    Inv cfg record primary secondaries { s with answered := s.answered ++ answers } := by
  have never : ∀ a ∈ answers, ∀ key, ¬ a.Appended key :=
    fun a member key appended => (quiet a member).1 appended.2
  refine inv.answers ?_ ⟨?_, ?_, ?_, ?_⟩ ?_
  · intro a member
    exact ⟨fun key is => absurd is (never a member key), fun key is => absurd is (never a member key),
      fun key is => absurd is (never a member key)⟩
  · exact List.pairwise_of_forall_mem_list fun a member _ _ key _ is =>
      absurd is (never a member key)
  · exact fun a member key is => absurd is (never a member key)
  · exact fun a member key is => absurd is (never a member key)
  · exact fun a member is => absurd is (quiet a member).2
  · exact fun _ _ a member _ key' _ is => absurd is (never a member key')

/-! ## The steps -/

theorem Inv.moreCalls (inv : Inv cfg record primary secondaries s) : Inv cfg record primary
    secondaries { s with group := { s.group with calls := s.group.calls + 1 } } where
  good := inv.good
  small := inv.small
  requests m member := by
    have known := inv.requests m member
    exact ⟨Nat.lt_succ_of_lt known.call, known.own, known.below, known.pad⟩
  running server origin request stage frame := by
    have known := inv.running server origin request stage frame
    exact ⟨Nat.lt_succ_of_lt known.call, known.own, known.below, known.pad⟩
  calls f there client := Nat.lt_succ_of_lt (inv.calls f there client)
  replies reply member ok := by
    have told := inv.replies reply member ok
    exact ⟨Nat.lt_succ_of_lt told.call, told.done⟩
  ended := inv.ended
  current := inv.current
  past := inv.past
  atomic := inv.atomic

theorem Inv.tend {buffer : DataBuffer} {slot : Option Slot}
    (inv : Inv cfg record primary secondaries s) (pushed : buffer.Pushed record)
    (held : ∀ slot' ∈ slot, slot'.held = true → ∃ old ∈ (s.group.replicas server).slot,
      old.held = true ∧ old.secondaries = slot'.secondaries)
    (upcoming : Order.upcoming { s.group.replicas server with slot } =
      Order.upcoming (s.group.replicas server)) :
    Inv cfg record primary secondaries { s with
      group := s.group.setReplica server { s.group.replicas server with buffer, slot } } := by
  have good := inv.good server
  refine inv.beside (good.frame pushed held good.length good.admitted ?_) ?_ (inv.running server) ?_
  · intro f there
    have carries := good.carries f there
    obtain ⟨origin, op, stage⟩ := f
    cases stage with
    | numbered => exact ⟨carries.client, carries.loads, carries.key, carries.kind, carries.place,
        carries.fits⟩
    | forwarding => exact ⟨carries.client, carries.key, carries.kind, carries.done, carries.inside,
        carries.fits⟩
    | _ => exact carries
  · rintro rfl
    exact ⟨rfl, rfl, upcoming⟩
  · exact fun _ _ _ _ _ entry _ found done => ⟨entry, found, done⟩

theorem Inv.sameReplica (inv : Inv cfg record primary secondaries s) :
    Inv cfg record primary secondaries
      { s with group := s.group.setReplica server (s.group.replicas server) } :=
  inv.tend (inv.good server).pushed (fun slot member held => ⟨slot, member, held, rfl⟩) rfl

theorem Inv.lock {op : MutationOp} {calls : Nat} (inv : Inv cfg record primary secondaries s)
    (free : (s.group.replicas server).frame = none) (le : s.group.calls ≤ calls)
    (fresh : op.isClient = true → origin.call = s.group.calls ∧ s.group.calls < calls)
    (known : ∀ request, op = .apply request → Known cfg record primary s.group origin request) :
    Inv cfg record primary secondaries { s with
      group := { s.group.setReplica server
        { s.group.replicas server with frame := some ⟨origin, op, .locked⟩ } with calls } } := by
  have good : Good cfg record primary secondaries server
      { s.group.replicas server with frame := some ⟨origin, op, .locked⟩ } := by
    have old := inv.good server
    refine old.frame old.pushed (fun slot member held => ⟨slot, member, held, rfl⟩) old.length ?_ ?_
    · rintro f ⟨⟩ -
      exact .inl rfl
    · rintro f ⟨⟩
      trivial
  have running : ∀ origin' request stage,
      some (⟨origin, op, .locked⟩ : Frame) = some ⟨origin', .apply request, stage⟩ →
        Known cfg record primary s.group origin' request := by
    rintro origin' request stage same
    cases same
    exact known request rfl
  by_cases eq : server = primary
  · subst eq
    refine inv.onward ?_ rfl le good ?_ ?_ ?_ (Nat.le_refl _) ?_ running
    · rw [free]
      nofun
    · rintro f ⟨⟩ client
      exact .inl (fresh client)
    · rw [floor_idle (by rw [free]; nofun), floor_idle (by rintro f ⟨⟩ - list request ⟨⟩)]
    · exact fun entry there => ⟨entry, there, Nat.le_max_left _ _⟩
    · rintro f ⟨⟩ ⟨⟩
  · have stepped : Inv cfg record primary secondaries { s with
        group := s.group.setReplica server { s.group.replicas server with
          frame := some ⟨origin, op, .locked⟩ } } := by
      refine inv.beside good (fun same => absurd same eq) running ?_
      exact fun _ _ _ _ _ entry _ found done => ⟨entry, found, done⟩
    obtain ⟨n, rfl⟩ := Nat.le.dest le
    clear le fresh
    induction n with
    | zero => exact stepped
    | succ n ih => exact ih.moreCalls

theorem not_forwarding {io : Io} {out : Outcome} {cfg : Config} {now : TimePoint}
    (advanced : r.advance cfg now io = some out) :
    ∀ f ∈ r.frame, ∀ list request, f.stage ≠ .forwarding list request := by
  rintro ⟨origin, op, stage⟩ frame list request same
  have same : stage = .forwarding list request := same
  subst same
  unfold Replica.advance at advanced
  rw [show r.frame = some ⟨origin, op, .forwarding list request⟩ from frame] at advanced
  cases advanced

theorem upcoming_next {now : TimePoint} {stage : Stage} {buffer : DataBuffer} {slot : Option Slot}
    (next : Replica.Next cfg now r f.op f.stage stage buffer slot) :
    (stage.isNumbered = false ∧ slot = r.slot) ∨
      (serial stage = Order.upcoming r ∧ slot = some (LeaseTable.nextSerial r.slot).2) := by
  obtain ⟨origin, op, stage₀⟩ := f
  dsimp only at next
  cases next with
  | write _ _ _ _ numbered => exact .inr ⟨numbered, rfl⟩
  | append _ _ numbered _ => exact .inr ⟨numbered, rfl⟩
  | _ => exact .inl ⟨rfl, rfl⟩

theorem next_forwarding {now : TimePoint} {stage : Stage} {buffer : DataBuffer}
    {slot : Option Slot} {list : List ServerId} {op : MutationOp} {stage₀ : Stage}
    (next : Replica.Next cfg now r op stage₀ stage buffer slot) :
    stage ≠ .forwarding list request := by
  rintro rfl
  cases next

theorem Inv.next {now : TimePoint} {stage : Stage} {buffer : DataBuffer} {slot : Option Slot}
    (inv : Inv cfg record primary secondaries s)
    (frame : (s.group.replicas server).frame = some f)
    (idle : ∀ list request, f.stage ≠ .forwarding list request)
    (next : Replica.Next cfg now (s.group.replicas server) f.op f.stage stage buffer slot) :
    Inv cfg record primary secondaries { s with
      group := s.group.setReplica server { s.group.replicas server with
        buffer, slot, frame := some ⟨f.origin, f.op, stage⟩ } } := by
  have good := (inv.good server).next frame next
  have running : ∀ origin' request stage',
      some (⟨f.origin, f.op, stage⟩ : Frame) = some ⟨origin', .apply request, stage'⟩ →
        Known cfg record primary s.group origin' request := by
    rintro origin' request stage' same
    obtain ⟨origin, op, stage₀⟩ := f
    cases same
    exact inv.running server _ _ _ frame
  by_cases eq : server = primary
  · subst eq
    refine inv.onward ?_ rfl (Nat.le_refl _) good ?_ ?_ ?_ ?_ ?_ running
    · intro f' there
      cases frame.symm.trans there
      exact fun _ => idle
    · rintro f' ⟨⟩ client
      exact .inr ⟨f, frame, client, rfl⟩
    · rw [floor_idle, floor_idle]
      · rintro f' ⟨⟩ - list request same
        exact next_forwarding next same
      · intro f' there
        cases frame.symm.trans there
        exact fun _ => idle
    · exact fun entry there => ⟨entry, there, Nat.le_max_left _ _⟩
    · rcases upcoming_next next with ⟨-, rfl⟩ | ⟨-, rfl⟩
      · exact Nat.le_refl _
      · exact Nat.le_succ _
    · rintro f' ⟨⟩ numbered
      rcases upcoming_next next with ⟨not, -⟩ | ⟨is, rfl⟩
      · rw [not] at numbered
        cases numbered
      · exact ⟨is ▸ Nat.lt_succ_self _, .inl is⟩
  · refine inv.beside good (fun same => absurd same eq) running ?_
    exact fun _ _ _ _ _ entry _ found done => ⟨entry, found, done⟩

theorem Inv.unlock {entry : Option ChunkEntry} (inv : Inv cfg record primary secondaries s)
    (frame : (s.group.replicas server).frame = some f)
    (idle : ∀ list request, f.stage ≠ .forwarding list request)
    (length : ∀ e ∈ entry, e.data.length < 2 ^ 64)
    (grown : server = primary → (s.group.replicas server).entry.elim 0 (·.data.length) ≤
      entry.elim 0 (·.data.length))
    (bounded : ∀ e' ∈ entry, ∃ e ∈ (s.group.replicas server).entry,
      e'.data.length ≤ max e.data.length cfg.chunkSize)
    (kept : server ≠ primary → ∀ f ∈ (s.group.replicas primary).frame, f.op.isAppend = true →
      ∀ list request e, f.stage = .forwarding list request →
        (s.group.replicas server).entry = some e → Done cfg record request e.data →
        ∃ e', entry = some e' ∧ Done cfg record request e'.data) :
    Inv cfg record primary secondaries { s with
      group := s.group.setReplica server { s.group.replicas server with entry, frame := none } } := by
  have good := (inv.good server).idle length
  by_cases eq : server = primary
  · subst eq
    refine inv.onward ?_ rfl (Nat.le_refl _) good nofun ?_ bounded (Nat.le_refl _) nofun nofun
    · intro f' there
      cases frame.symm.trans there
      exact fun _ => idle
    · rw [floor_idle, floor_idle (by rintro f ⟨⟩)]
      · exact grown rfl
      · intro f' there
        cases frame.symm.trans there
        exact fun _ => idle
  · exact inv.beside good (fun same => absurd same eq) nofun (kept eq)

/-- Only the primary numbers mutations. -/
theorem Inv.at_primary {list : List ServerId} {data : Bytes}
    (inv : Inv cfg record primary secondaries s)
    (frame : (s.group.replicas server).frame = some f)
    (stage : f.stage = .numbered list request data) : server = primary := by
  have carries := (inv.good server).carries f frame
  rw [stage] at carries
  rcases (inv.good server).admitted f frame carries.client with here | here | here
  · rw [stage] at here
    cases here
  · rw [stage] at here
    cases here
  · exact here.1

theorem Inv.storeLocal {io : Io} {list : List ServerId} {data : Bytes} {entry entry' : ChunkEntry}
    (inv : Inv cfg record primary secondaries s)
    (frame : (s.group.replicas primary).frame = some f)
    (stage : f.stage = .numbered list request data)
    (found : (s.group.replicas primary).entry = some entry)
    (applied : ChunkStore.apply cfg.chunkSize io entry ⟨f.origin, request⟩ data = (.ok, entry')) :
    Inv cfg record primary secondaries { s with
      group := { s.group.setReplica primary { s.group.replicas primary with
          entry := some entry', frame := some ⟨f.origin, f.op, .forwarding list request⟩ } with
        requests := s.group.requests ++ list.map (⟨·, f.origin, request⟩) } } := by
  have old := inv.good primary
  have carries := old.carries f frame
  rw [stage] at carries
  have good := old.forward inv.small frame stage found applied
  have stored := ChunkStore.apply_stored carries.loads.1 applied
  have idle : ∀ f ∈ (s.group.replicas primary).frame, f.op.isClient = true →
      ∀ list request, f.stage ≠ .forwarding list request := by
    intro f' there _ list' request' other
    cases frame.symm.trans there
    rw [stage] at other
    cases other
  have grown : entry.data.length ≤ entry'.data.length := by
    refine stored.le_length fun pad => ?_
    cases append : f.op.isAppend with
    | true => exact .inl (carries.place append entry found).ge
    | false =>
        rw [carries.kind append] at pad
        cases pad
  have stepped : Inv cfg record primary secondaries { s with
      group := s.group.setReplica primary { s.group.replicas primary with
        entry := some entry', frame := some ⟨f.origin, f.op, .forwarding list request⟩ } } := by
    refine inv.onward idle rfl (Nat.le_refl _) good ?_ ?_ ?_ (Nat.le_refl _) ?_ ?_
    · rintro f' ⟨⟩ client
      exact .inr ⟨f, frame, client, rfl⟩
    · rw [floor_idle idle, found]
      unfold floor
      split
      · rename_i same
        obtain ⟨origin, op, stage₀⟩ := f
        cases same
        exact (carries.place rfl entry found).ge
      · exact grown
    · rintro e ⟨⟩
      exact ⟨entry, found, stored.length_le⟩
    · rintro f' ⟨⟩ -
      have numbered : f.stage.isNumbered = true := by rw [stage]; rfl
      have same : serial f.stage = request.serial := by rw [stage]; rfl
      have below := inv.current f frame numbered
      rw [same] at below
      exact ⟨below, .inr ⟨f, frame, numbered, same⟩⟩
    · rintro origin' request' stage' same
      have client := carries.client
      obtain ⟨origin, op, stage₀⟩ := f
      cases same
      cases client
  refine stepped.messages ?_ (fun _ member _ => .inl member) (fun _ => id) fun _ member _ =>
    .inl member
  intro m member
  rcases List.mem_append.mp member with old | new
  · exact .inl old
  · obtain ⟨target, -, rfl⟩ := List.mem_map.mp new
    refine .inr ⟨inv.calls f frame carries.client, ?_, ?_, ?_⟩
    · dsimp only
      rw [Group.setReplica_self]
      rintro f' ⟨⟩ - -
      exact ⟨list, rfl⟩
    · dsimp only
      rw [Group.setReplica_self]
      intro apart
      have other := apart ⟨f.origin, f.op, .forwarding list request⟩ rfl carries.client
      exact absurd rfl other
    · dsimp only
      rw [Group.setReplica_self]
      rintro pad e ⟨⟩
      obtain ⟨done, -⟩ := Done.of_stored stored carries.loads
      unfold Done at done
      rw [pad] at done
      exact done.le

theorem Inv.storeForwarded {io : Io} {stage : Stage} {data : Bytes} {entry entry' : ChunkEntry}
    {code : ResultCode} (inv : Inv cfg record primary secondaries s)
    (frame : (s.group.replicas server).frame = some ⟨origin, .apply request, stage⟩)
    (idle : ∀ list request, stage ≠ .forwarding list request)
    (loads : Loads record request data)
    (found : (s.group.replicas server).entry = some entry)
    (applied : ChunkStore.apply cfg.chunkSize io entry ⟨origin, request⟩ data = (code, entry')) :
    Inv cfg record primary secondaries { s with
      group := { s.group.setReplica server { s.group.replicas server with
          entry := some entry', frame := none } with
        replies := s.group.replies ++ [⟨origin.call, server, code = .ok⟩] } } := by
  have known := inv.running server origin request stage frame
  have stored : ChunkStore.Stored cfg.chunkSize entry.data request data code entry'.data :=
    ChunkStore.apply_stored loads.1 applied
  have stepped : Inv cfg record primary secondaries { s with
      group := s.group.setReplica server { s.group.replicas server with
        entry := some entry', frame := none } } := by
    refine inv.unlock frame idle (length_stored inv.small ((inv.good server).length entry found)
      stored) ?_ ?_ ?_
    · rintro rfl
      rw [found]
      exact stored.le_length fun pad => .inr (known.pad pad entry found)
    · rintro e ⟨⟩
      exact ⟨entry, found, stored.length_le⟩
    · intro _ f there append list current e forwarding here done
      cases found.symm.trans here
      refine ⟨entry', rfl, ?_⟩
      have carries := (inv.good primary).carries f there
      rw [forwarding] at carries
      by_cases eq : f.origin.call = origin.call
      · obtain ⟨list', same⟩ := known.own f there carries.client eq
        cases forwarding.symm.trans same
        exact done.again stored loads
      · have below := known.below fun f' there' _ => by
          cases there.symm.trans there'
          exact eq
        have level : floor (s.group.replicas primary) = current.offset := by
          unfold floor
          obtain ⟨origin', op, stage'⟩ := f
          dsimp only at forwarding
          subst forwarding
          cases op with
          | append version key =>
              rw [show (s.group.replicas primary).frame = _ from there]
          | _ => cases append
        rw [level] at below
        exact done.beside carries.inside stored loads below
  refine stepped.messages (fun _ => .inl) ?_ (fun _ => List.mem_append_left _) fun _ member _ =>
    .inl member
  intro reply member ok
  rcases List.mem_append.mp member with old | new
  · exact .inl old
  · cases List.mem_singleton.mp new
    have fine : code = .ok := of_decide_eq_true ok
    subst fine
    refine .inr ⟨known.call, ?_⟩
    intro f there client eq
    by_cases same : server = primary
    · subst same
      dsimp only at there
      rw [Group.setReplica_self] at there
      cases there
    · dsimp only at there
      rw [Group.setReplica_of_ne (Ne.symm same)] at there
      obtain ⟨list, forwarding⟩ := known.own f there client eq
      refine ⟨list, request, forwarding, fun _ => ⟨entry', ?_, (Done.of_stored stored loads).1⟩⟩
      dsimp only
      rw [Group.setReplica_self]

theorem Inv.advance {io : Io} {g' : Group} (inv : Inv cfg record primary secondaries s)
    (taken : s.group.advance cfg io server = some g') :
    Inv cfg record primary secondaries { s with group := g' } := by
  obtain ⟨f, out, frame, advanced, rfl⟩ := Group.advance_cases taken
  have idle : ∀ list request, f.stage ≠ .forwarding list request :=
    not_forwarding advanced f frame
  have replied : ∀ out : Outcome, (∀ response ∈ out.response, response.code ≠ .ok) →
      ∀ reply ∈ s.group.replies ++ Group.replied server f out, reply.ok = true →
        reply ∈ s.group.replies := by
    intro out fails reply member ok
    rcases List.mem_append.mp member with old | new
    · exact old
    · exfalso
      unfold Group.replied at new
      split at new
      · rename_i response _ answered
        cases List.mem_singleton.mp new
        exact fails response answered (of_decide_eq_true ok)
      · cases new
  cases Replica.advance_turn frame advanced with
  | answer wrong _ =>
      have stepped := inv.unlock frame idle (inv.good server).length (fun _ => Nat.le_refl _)
        (fun e there => ⟨e, there, Nat.le_max_left _ _⟩)
        fun _ _ _ _ _ _ e _ found done => ⟨e, found, done⟩
      refine stepped.messages ?_ ?_ (fun _ => List.mem_append_left _) fun _ member _ => .inl member
      · intro m member
        simp only [Group.sent, List.append_nil] at member
        exact .inl member
      · intro reply member ok
        exact .inl (replied _ (by rintro response ⟨⟩; exact wrong) reply member ok)
  | @move stage buffer slot next =>
      have stepped := inv.next frame idle next
      refine stepped.messages ?_ ?_ (fun _ => List.mem_append_left _) fun _ member _ => .inl member
      · intro m member
        have none_sent : Group.sent { replica := { s.group.replicas server with
            buffer, slot, frame := some ⟨f.origin, f.op, stage⟩ } } = [] := by
          unfold Group.sent
          split
          · rename_i same
            cases same
            exact absurd rfl (next_forwarding next)
          · rfl
        rw [none_sent, List.append_nil] at member
        exact .inl member
      · intro reply member ok
        exact .inl (replied _ (by rintro response ⟨⟩) reply member ok)
  | storeLocal stage found applied =>
      cases inv.at_primary frame stage
      have stepped := inv.storeLocal frame stage found applied
      exact stepped.messages (fun m member => .inl member)
        (fun reply member ok => .inl (replied _ (by rintro response ⟨⟩) reply member ok))
        (fun _ => List.mem_append_left _) fun _ member _ => .inl member
  | @storeFailed list request data entry entry' code stage found applied =>
      cases inv.at_primary frame stage
      have carries := (inv.good primary).carries f frame
      rw [stage] at carries
      have stored := ChunkStore.apply_stored carries.loads.1 applied
      have stepped := inv.unlock frame idle (length_stored inv.small
        ((inv.good primary).length entry found) stored) (fun _ => by
          rw [found]
          refine stored.le_length fun pad => ?_
          cases append : f.op.isAppend with
          | true => exact .inl (carries.place append entry found).ge
          | false =>
              rw [carries.kind append] at pad
              cases pad)
        (by rintro e ⟨⟩; exact ⟨entry, found, stored.length_le⟩) (fun other => absurd rfl other)
      refine stepped.messages ?_ ?_ (fun _ => List.mem_append_left _) fun _ member _ => .inl member
      · intro m member
        simp only [Group.sent, List.append_nil] at member
        exact .inl member
      · intro reply member ok
        exact .inl (replied _ (by rintro response ⟨⟩; decide) reply member ok)
  | @storeForwarded request data entry entry' code op ready found applied =>
      obtain ⟨origin, op', stage⟩ := f
      dsimp only at op
      subst op
      have loads : Loads record request data := by
        rcases ready with ⟨pad, rfl⟩ | ⟨list, rfl⟩
        · refine ⟨by simp, fun kind => ?_⟩
          rw [pad] at kind
          cases kind
        · obtain ⟨is, short⟩ := (inv.good server).carries _ frame
          exact ⟨short, fun _ => is⟩
      have stepped := inv.storeForwarded frame idle loads found applied
      refine stepped.messages ?_ (fun reply member ok => .inl member) (fun _ => id) fun _ member _ =>
        .inl member
      intro m member
      simp only [Group.sent, List.append_nil] at member
      exact .inl member

theorem Inv.through {list : List ServerId} {op : MutationOp}
    (inv : Inv cfg record primary secondaries s)
    (frame : (s.group.replicas primary).frame = some ⟨origin, op, .forwarding list request⟩) :
    Inv cfg record primary secondaries { s with
      group := s.group.setReplica primary { s.group.replicas primary with frame := none } } := by
  have old := inv.good primary
  have carries : Forwards cfg record (s.group.replicas primary) op request := old.carries _ frame
  obtain ⟨entry, found, done, placed⟩ := carries.done
  have level : floor { s.group.replicas primary with frame := none } = entry.data.length := by
    rw [floor_idle (by rintro f ⟨⟩)]
    dsimp only
    rw [found]
    rfl
  have grown : floor (s.group.replicas primary) ≤ entry.data.length := by
    unfold floor
    rw [frame]
    cases op with
    | append version key => exact placed rfl
    | _ =>
        rw [found]
        exact Nat.le_refl _
  have known : ∀ {origin request}, Known cfg record primary s.group origin request →
      Known cfg record primary (s.group.setReplica primary
        { s.group.replicas primary with frame := none }) origin request := by
    intro origin' request' known
    refine ⟨known.call, ?_, ?_, ?_⟩
    · rw [Group.setReplica_self]
      rintro f ⟨⟩
    · rw [Group.setReplica_self, level]
      intro _
      by_cases eq : origin.call = origin'.call
      · obtain ⟨list', same⟩ := known.own _ frame carries.client eq
        cases same
        exact done.below
      · refine (known.below fun f there _ => ?_).mono grown
        cases frame.symm.trans there
        exact eq
    · rw [Group.setReplica_self]
      exact known.pad
  constructor
  · intro server
    by_cases eq : server = primary
    · subst eq
      dsimp only
      rw [Group.setReplica_self]
      exact old.idle old.length
    · dsimp only
      rw [Group.setReplica_of_ne eq]
      exact inv.good server
  · exact inv.small
  · exact fun m member => known (inv.requests m member)
  · intro server origin' request' stage' found
    by_cases eq : server = primary
    · subst eq
      dsimp only at found
      rw [Group.setReplica_self] at found
      cases found
    · dsimp only at found
      rw [Group.setReplica_of_ne eq] at found
      exact known (inv.running server origin' request' stage' found)
  · dsimp only
    rw [Group.setReplica_self]
    rintro f ⟨⟩
  · intro reply member ok
    refine ⟨(inv.replies reply member ok).call, ?_⟩
    dsimp only
    rw [Group.setReplica_self]
    rintro f ⟨⟩
  · exact inv.ended
  · dsimp only
    rw [Group.setReplica_self]
    rintro f ⟨⟩
  · dsimp only
    rw [Group.setReplica_self]
    intro a member
    have past := inv.past a member
    refine ⟨fun key is => ?_, past.upcoming, fun key is f there => ?_⟩
    · rw [level]
      exact Nat.le_trans (past.below key is) grown
    · cases there
  · exact inv.atomic

theorem Inv.answered {list : List ServerId} {op : MutationOp} {reached : Bool}
    {bytes : ServerId → Option Bytes} (inv : Inv cfg record primary secondaries s)
    (frame : (s.group.replicas primary).frame = some ⟨origin, op, .forwarding list request⟩)
    (all : reached = true → ∀ c ∈ list, ⟨origin.call, c, true⟩ ∈ s.group.ended)
    (is : ∀ server, bytes server = (s.group.replicas server).entry.map (·.data)) :
    Inv cfg record primary secondaries
      { group := s.group.setReplica primary { s.group.replicas primary with frame := none }
        answered := s.answered ++
          [⟨op, .forwarding list request, Replica.afterForward request reached op, bytes⟩] } := by
  have old := inv.good primary
  have carries : Forwards cfg record (s.group.replicas primary) op request := old.carries _ frame
  obtain ⟨entry, found, done, placed⟩ := carries.done
  have listed : list = secondaries := by
    rcases old.admitted _ frame carries.client with here | here | here
    · cases here
    · cases here
    · exact here.2
  -- where every secondary has answered OK the mutation is done on every copy
  have everywhere : op.isAppend = true → reached = true → ∀ server ∈ primary :: secondaries,
      ∃ data, bytes server = some data ∧ Done cfg record request data := by
    intro append ok server member
    rcases List.mem_cons.mp member with rfl | member
    · exact ⟨entry.data, by rw [is, found]; rfl, done⟩
    · have replied := inv.ended _ (all ok server (listed ▸ member)) rfl
      obtain ⟨list', request', same, done⟩ :=
        (inv.replies _ replied rfl).done _ frame carries.client rfl
      cases same
      obtain ⟨entry, found, done⟩ := done append
      exact ⟨entry.data, by rw [is, found]; rfl, done⟩
  have appended : ∀ {key version}, op = .append version key →
      (Replica.afterForward request reached op).code = .ok →
      reached = true ∧ request.kind = .write ∧ request.key = key ∧
        (Replica.afterForward request reached op).offset = request.offset := by
    rintro key version rfl ok
    cases reached with
    | false => cases ok
    | true =>
        cases kind : request.kind with
        | pad => simp [Replica.afterForward, kind] at ok
        | write => exact ⟨rfl, rfl, carries.key, by simp [Replica.afterForward, kind]⟩
  have full : (Replica.afterForward request reached op).code = .retryNextChunk →
      op.isAppend = true ∧ reached = true ∧ request.kind = .pad := by
    intro code
    cases op with
    | append version key =>
        cases reached with
        | false => cases code
        | true =>
            cases kind : request.kind with
            | pad => exact ⟨rfl, rfl, rfl⟩
            | write => simp [Replica.afterForward, kind] at code
    | _ => cases reached <;> cases code
  refine (inv.through frame).answers ?_ ⟨?_, ?_, ?_, ?_⟩ ?_
  · intro a member
    cases List.mem_singleton.mp member
    dsimp only
    rw [Group.setReplica_self]
    refine ⟨?_, ?_, ?_⟩
    · rintro key ⟨⟨version, rfl⟩, ok⟩
      obtain ⟨-, kind, rfl, offset⟩ := appended rfl ok
      dsimp only
      rw [offset, floor_idle (by rintro f ⟨⟩)]
      dsimp only
      rw [found]
      unfold Done at done
      rw [kind] at done
      by_cases empty : record request.key = []
      · rw [empty]
        exact placed rfl
      · exact ChunkStore.length_of_prefix done empty
    · exact fun _ _ => inv.current _ frame rfl
    · rintro _ _ f ⟨⟩
  · exact List.pairwise_singleton _ _
  · intro a member
    cases List.mem_singleton.mp member
    rintro key ⟨⟨version, rfl⟩, ok⟩
    obtain ⟨-, kind, rfl, offset⟩ := appended rfl ok
    dsimp only
    rw [offset]
    exact carries.fits rfl kind
  · intro a member
    cases List.mem_singleton.mp member
    rintro key ⟨⟨version, rfl⟩, ok⟩ server there
    obtain ⟨reached, kind, rfl, offset⟩ := appended rfl ok
    obtain ⟨data, bytes, done⟩ := everywhere rfl reached server there
    unfold Done at done
    rw [kind] at done
    dsimp only
    rw [offset]
    exact ⟨data, bytes, done⟩
  · intro a member
    cases List.mem_singleton.mp member
    intro code server there
    obtain ⟨append, reached, kind⟩ := full code
    obtain ⟨data, bytes, done⟩ := everywhere append reached server there
    unfold Done at done
    rw [kind] at done
    exact ⟨data, bytes, done⟩
  · intro before there a member
    cases List.mem_singleton.mp member
    rintro key key' is ⟨⟨version, rfl⟩, ok⟩
    obtain ⟨-, -, -, offset⟩ := appended rfl ok
    have past := inv.past before there
    have below := past.below key is
    unfold floor at below
    rw [frame] at below
    dsimp only
    rw [offset]
    exact ⟨past.current key is _ frame rfl, below⟩

theorem responses_client {op : MutationOp} {answer : MutationOp × Stage × Response}
    (given : answer ∈ responses cfg g (.client server op)) : answer.2.2.code = .noSuchChunk := by
  unfold responses at given
  dsimp only at given
  split at given
  · rename_i out started
    rcases Replica.start_cases started with ⟨-, rfl⟩ | ⟨-, rfl⟩
    · simp only [Option.toList_some, List.map_cons, List.map_nil, List.mem_singleton] at given
      rw [given]
    · cases given
  · cases given

theorem responses_advance {io : Io} {answer : MutationOp × Stage × Response}
    (given : answer ∈ responses cfg g (.advance io server)) :
    answer.2.2.code ≠ .ok ∧ answer.2.2.code ≠ .retryNextChunk := by
  unfold responses at given
  dsimp only at given
  split at given
  · rename_i f out frame advanced
    split at given
    · rename_i client
      cases Replica.advance_turn frame advanced with
      | answer wrong other =>
          simp only [Option.toList_some, List.map_cons, List.map_nil, List.mem_singleton] at given
          rw [given]
          exact ⟨wrong, other⟩
      | move => cases given
      | storeLocal => cases given
      | storeFailed =>
          simp only [Option.toList_some, List.map_cons, List.map_nil, List.mem_singleton] at given
          rw [given]
          exact ⟨nofun, nofun⟩
      | storeForwarded op =>
          rw [op] at client
          cases client
    · cases given
  · cases given

theorem inv_step {s' : Session} {action : Order.Action} (inv : Inv cfg record primary secondaries s)
    (during : During record action) (taken : step cfg s action = some s') :
    Inv cfg record primary secondaries s' := by
  obtain ⟨g, stepped, rfl⟩ := Option.map_eq_some_iff.mp taken
  have silent : ∀ {action}, (∀ g, responses cfg g action = []) →
      Inv cfg record primary secondaries { s with group := g } →
      Inv cfg record primary secondaries
        { group := g
          answered := s.answered ++ (responses cfg s.group action).map
            fun (op, stage, response) => { op, stage, response, chunks := chunks g } } := by
    intro action none_given inv
    rw [none_given, List.map_nil, List.append_nil]
    exact inv
  cases action with
  | tick elapsed =>
      cases stepped
      refine silent (fun _ => rfl) ?_
      exact inv.messages (fun _ => .inl) (fun _ member _ => .inl member) (fun _ => id)
        fun _ member _ => .inl member
  | push server key data =>
      cases stepped
      refine silent (fun _ => rfl) ?_
      exact inv.tend ((inv.good server).pushed.put during.1 during.2)
        (fun slot member held => ⟨slot, member, held, rfl⟩) rfl
  | client server op =>
      simp only [Order.step, Group.startClient, Option.ite_none_right_eq_some,
        Option.map_eq_some_iff] at stepped
      obtain ⟨client, out, started, rfl⟩ := stepped
      have moved : Inv cfg record primary secondaries { s with
          group := { s.group.setReplica server out.replica with calls := s.group.calls + 1 } } := by
        rcases Replica.start_cases started with ⟨-, rfl⟩ | ⟨free, rfl⟩
        · exact inv.sameReplica.moreCalls
        · refine inv.lock free (Nat.le_succ _) (fun _ => ⟨rfl, Nat.lt_succ_self _⟩) ?_
          rintro request rfl
          cases client
      refine moved.quiet fun a member => ?_
      obtain ⟨answer, given, rfl⟩ := List.mem_map.mp member
      have code := responses_client given
      exact ⟨fun is => (by rw [code] at is; cases is), fun is => (by rw [code] at is; cases is)⟩
  | deliver m =>
      simp only [Order.step, Group.deliver, Option.ite_none_right_eq_some,
        Option.map_eq_some_iff] at stepped
      obtain ⟨member, out, started, rfl⟩ := stepped
      refine silent (fun _ => rfl) ?_
      have moved : Inv cfg record primary secondaries { s with
          group := s.group.setReplica m.target out.replica } := by
        rcases Replica.start_cases started with ⟨-, rfl⟩ | ⟨free, rfl⟩
        · exact inv.sameReplica
        · refine inv.lock free (Nat.le_refl _) (fun isClient => by cases isClient) ?_
          rintro request ⟨⟩
          exact inv.requests m member
      refine moved.messages (fun _ member => .inl (List.mem_of_mem_erase member)) ?_
        (fun _ => List.mem_append_left _) fun _ member _ => .inl member
      intro reply there ok
      rcases List.mem_append.mp there with old | new
      · exact .inl old
      · split at new
        · cases List.mem_singleton.mp new
          cases ok
        · cases new
  | advance io server =>
      refine Inv.quiet (s := { s with group := g }) (inv.advance stepped) fun a member => ?_
      obtain ⟨answer, given, rfl⟩ := List.mem_map.mp member
      exact responses_advance given
  | accept reply =>
      simp only [Order.step, Group.accept, Option.ite_none_right_eq_some, Option.some.injEq]
        at stepped
      obtain ⟨⟨there, -⟩, rfl⟩ := stepped
      refine silent (fun _ => rfl) ?_
      refine inv.messages (fun _ => .inl) (fun _ member _ => .inl member) (fun _ => id) ?_
      intro other member ok
      rcases List.mem_append.mp member with old | new
      · exact .inl old
      · cases List.mem_singleton.mp new
        exact .inr there
  | timeout call secondary =>
      simp only [Order.step, Group.timeout, Option.ite_none_right_eq_some, Option.some.injEq]
        at stepped
      obtain ⟨-, rfl⟩ := stepped
      refine silent (fun _ => rfl) ?_
      refine inv.messages (fun _ => .inl) (fun _ member _ => .inl member) (fun _ => id) ?_
      intro other member ok
      rcases List.mem_append.mp member with old | new
      · exact .inl old
      · cases List.mem_singleton.mp new
        cases ok
  | finish server =>
      obtain ⟨origin, op, list, request, frame, -, rfl⟩ := Group.finish_cases stepped
      have carries := (inv.good server).carries _ frame
      have here : server = primary := by
        rcases (inv.good server).admitted _ frame carries.client with here | here | here
        · cases here
        · cases here
        · exact here.1
      subst here
      have given : responses cfg s.group (.finish server) =
          [(op, .forwarding list request, Replica.afterForward request
            (list.all fun c => ⟨origin.call, c, true⟩ ∈ s.group.ended) op)] := by
        unfold responses
        dsimp only
        rw [frame]
      rw [given]
      have same : ∀ other, chunks (s.group.setReplica server
          { s.group.replicas server with frame := none }) other =
          (s.group.replicas other).entry.map (·.data) := by
        intro other
        unfold chunks
        by_cases eq : other = server
        · subst eq
          rw [Group.setReplica_self]
        · rw [Group.setReplica_of_ne eq]
      have said := inv.answered frame
        (fun all c member => of_decide_eq_true (List.all_eq_true.mp all c member)) same
      exact said.messages (fun _ => .inl) (fun _ member _ => .inl member) (fun _ => id)
        fun _ member _ => .inl member
  | setVersion io server half => exact during.elim
  | complete server half => exact during.elim
  | revokeLease server =>
      cases stepped
      refine silent (fun _ => rfl) ?_
      refine inv.tend (inv.good server).pushed ?_ ?_
      · intro slot member held
        obtain ⟨old, -, rfl⟩ := Option.map_eq_some_iff.mp member
        cases held
      · cases slot : (s.group.replicas server).slot <;>
          simp [Order.upcoming, LeaseTable.nextSerial, LeaseTable.revoke, slot]
  | extend server lease =>
      cases stepped
      refine silent (fun _ => rfl) ?_
      refine inv.tend (inv.good server).pushed ?_ ?_
      · intro slot member held
        obtain ⟨old, there, rfl⟩ := Option.map_eq_some_iff.mp member
        refine ⟨old, there, ?_⟩
        by_cases is : old.held = true
        · rw [if_pos is]
          exact ⟨is, rfl⟩
        · rw [if_neg is] at held ⊢
          exact ⟨held, rfl⟩
      · cases slot : (s.group.replicas server).slot with
        | none => simp [Order.upcoming, LeaseTable.nextSerial, LeaseTable.extend, slot]
        | some old =>
            cases held : old.held <;>
              simp [Order.upcoming, LeaseTable.nextSerial, LeaseTable.extend, slot, held]
  | remove server => exact during.elim

end

/-- Whatever is interleaved under the lease, and whatever fails. -/
theorem atomic_of_lease {cfg : Config} {record : BufferKey → Bytes} {primary : ServerId}
    {secondaries : List ServerId} {s : Session}
    (reachable : Reachable (step cfg) (Initial cfg record primary secondaries)
      (fun _ action => During record action) s) :
    Atomic cfg record primary secondaries s.answered :=
  (reachable.invariant (fun _ => Initial.inv) fun _ _ _ inv during taken =>
    inv_step inv during taken).atomic

/-! ## A run -/

def p : ServerId := "p".toList
def s : ServerId := "s".toList

/-- The record of the first call fits in a chunk of three bytes, that of the second does not. -/
def recordOf (key : BufferKey) : Bytes := if key.sequence = 0 then [7, 8] else [9, 9]

/-- Two replicas of the chunk, and a lease of `p` with `s` as its secondary. -/
def leased : Session where
  group :=
    { now := 0
      replicas := fun server =>
        { entry := some { version := 1 }
          slot := if server = p then some { held := true, expiry := 1, secondaries := [s] } else none
          buffer := { capacity := 100 } } }

instance (action : Order.Action) : Decidable (During recordOf action) :=
  match action with
  | .push _ key data => inferInstanceAs (Decidable (data = recordOf key ∧ data.length < 2 ^ 63))
  | .setVersion _ _ _ | .complete _ _ | .remove _ => isFalse id
  | .tick _ | .client _ _ | .deliver _ | .advance _ _ | .accept _ | .timeout _ _ | .finish _
  | .revokeLease _ | .extend _ _ => isTrue trivial

/-- A call of a client that appends, up to the requests of the primary. -/
def appendRecord (call : Nat) : List Order.Action :=
  [.push p ⟨[], call⟩ (recordOf ⟨[], call⟩), .push s ⟨[], call⟩ (recordOf ⟨[], call⟩),
    .client p (.append 1 ⟨[], call⟩)] ++ List.replicate 6 (.advance .ok p)

def twoRecords : List Order.Action :=
  appendRecord 0 ++ [.deliver ⟨s, ⟨p, 0⟩, ⟨1, 1, .write, 0, ⟨[], 0⟩⟩⟩] ++
    List.replicate 3 (.advance .ok s) ++ [.accept ⟨0, s, true⟩, .finish p] ++
    appendRecord 1 ++ [.deliver ⟨s, ⟨p, 1⟩, ⟨1, 2, .pad, 2, ⟨[], 1⟩⟩⟩] ++
    List.replicate 2 (.advance .ok s) ++ [.accept ⟨1, s, true⟩, .finish p]

theorem leased_initial : Initial { chunkSize := 3 } recordOf p [s] leased where
  idle _ := rfl
  requests := rfl
  replies := rfl
  ended := rfl
  answered := rfl
  held server slot there held := by
    by_cases eq : server = p
    · subst eq
      cases there
      exact ⟨rfl, rfl⟩
    · simp [leased, eq] at there
  pushed _ := ⟨nofun, nofun, nofun, nofun⟩
  lengths server entry there := by
    cases there
    decide
  chunkSize := by decide

theorem atomic_twoRecords :
    ∃ x, run (step { chunkSize := 3 }) leased twoRecords = some x ∧
      x.answered.map (·.response) = [{ code := .ok, offset := 0 }, { code := .retryNextChunk }] ∧
      Atomic { chunkSize := 3 } recordOf p [s] x.answered := by
  obtain ⟨x, ran⟩ := Option.isSome_iff_exists.mp
    (by decide : (run (step { chunkSize := 3 }) leased twoRecords).isSome = true)
  have last : (run (step { chunkSize := 3 }) leased twoRecords).map (·.answered.map (·.response)) =
      some [{ code := .ok, offset := 0 }, { code := .retryNextChunk }] := by decide
  simp only [ran, Option.map_some, Option.some.injEq] at last
  exact ⟨x, ran, last, atomic_of_lease (reachable_run leased_initial (by decide) ran)⟩

end Gfs.Chunkserver.Appends
