import Gfs.Chunkserver.DataBuffer
import Gfs.Chunkserver.LeaseTable
import Gfs.Lib.Overlay

/-!
# One chunkserver and one chunk: `chunkserver/chunkserver.cc` over `ChunkStore`

A `Replica` is what a chunkserver keeps about one handle, with its data buffer. The handlers are cut
at their mutex-protected steps: a mutation holds the mutation lock of the chunk as a `Frame` whose
`stage` says how far it has come, and a `GrantLease` or `UpdateVersion` handler that has done its
`SetVersion` leaves the rest of its work as a `Half`. The store is taken at the level of the bytes
of the chunk.
-/

namespace Gfs.Chunkserver

inductive MutationKind
  | write | pad
deriving DecidableEq, Repr

structure ApplyMutationRequest where
  version : Nat
  serial : Nat
  kind : MutationKind
  offset : Nat
  key : BufferKey
deriving DecidableEq, Repr

/-- History only: the client mutation that a handler works on, named by the chunkserver that ordered
it and the number of the client's call. -/
structure Origin where
  primary : ServerId
  call : Nat
deriving DecidableEq, Repr

structure Mutation where
  origin : Origin
  request : ApplyMutationRequest
deriving DecidableEq, Repr

/-- `log` is a history variable: the mutations that this copy has taken, the oldest first. -/
structure ChunkEntry where
  version : Nat
  data : Bytes := []
  log : List Mutation := []
deriving DecidableEq

/-! ## The chunk store -/

/-- How the system calls of one store operation end: all well, the write stops after some bytes,
or the bytes are written and a later call fails. -/
inductive Io
  | ok | writeFails (bytes : Nat) | syncFails
deriving DecidableEq

namespace ChunkStore
open Lib.Overlay (overlay)

def write (chunkSize : Nat) (io : Io) (entry : ChunkEntry) (offset : Nat) (data : Bytes) :
    ResultCode × ChunkEntry :=
  if chunkSize < u64 (offset + data.length) then (.outOfRange, entry)
  else if data = [] then (.ok, entry)
  -- `pwrite` refuses an offset that is negative as an `off_t`
  else if 2 ^ 63 ≤ offset then (.failed, entry)
  else match io with
    | .ok => (.ok, { entry with data := overlay 0 entry.data offset data })
    | .writeFails n =>
        (.failed, { entry with
          data := (overlay 0 entry.data offset (data.take n)).take entry.data.length })
    | .syncFails => (.failed, { entry with data := overlay 0 entry.data offset data })

/-- The bytes after `Pad`, which keeps what is before `from` and fills the chunk with zeros. The
entry has no bytes behind its length. In the source a `pwrite` that failed half-way leaves some there,
and the branch that only moves the length brings them back: `Disk.Store` models these. -/
def padded (chunkSize : Nat) (data : Bytes) (start : Nat) : Bytes :=
  let kept := data.take start
  kept ++ List.replicate (chunkSize - kept.length) 0

theorem length_padded {chunkSize start : Nat} {data : Bytes} (fits : start ≤ chunkSize) :
    (padded chunkSize data start).length = chunkSize := by
  unfold padded
  simp only [List.length_append, List.length_take, List.length_replicate]
  omega

def pad (chunkSize : Nat) (io : Io) (entry : ChunkEntry) (start : Nat) :
    ResultCode × ChunkEntry :=
  if chunkSize < start then (.outOfRange, entry)
  else match io with
    | .ok => (.ok, { entry with data := padded chunkSize entry.data start })
    | .writeFails n =>
        (.failed, { entry with
          data := (overlay 0 entry.data start (List.replicate (min n (chunkSize - start)) 0)).take
            entry.data.length })
    | .syncFails => (.failed, { entry with data := padded chunkSize entry.data start })

def setVersion (io : Io) (entry : ChunkEntry) (version : Nat) : ResultCode × ChunkEntry :=
  if entry.version = version then (.ok, entry)
  else if io = .ok then (.ok, { entry with version }) else (.failed, entry)

/-- The store call of a mutation; one that succeeds is recorded. -/
def apply (chunkSize : Nat) (io : Io) (entry : ChunkEntry) (mutation : Mutation)
    (data : Bytes) : ResultCode × ChunkEntry :=
  let result := match mutation.request.kind with
    | .pad => pad chunkSize io entry mutation.request.offset
    | .write => write chunkSize io entry mutation.request.offset data
  if result.1 = .ok then (.ok, { result.2 with log := entry.log ++ [mutation] }) else result

@[simp] theorem write_version (chunkSize : Nat) (io : Io) (entry : ChunkEntry) (offset : Nat)
    (data : Bytes) : (write chunkSize io entry offset data).2.version = entry.version := by
  unfold write
  split_ifs <;> cases io <;> rfl

@[simp] theorem pad_version (chunkSize : Nat) (io : Io) (entry : ChunkEntry) (start : Nat) :
    (pad chunkSize io entry start).2.version = entry.version := by
  unfold pad
  split_ifs <;> cases io <;> rfl

@[simp] theorem write_log (chunkSize : Nat) (io : Io) (entry : ChunkEntry) (offset : Nat)
    (data : Bytes) : (write chunkSize io entry offset data).2.log = entry.log := by
  unfold write
  split_ifs <;> cases io <;> rfl

@[simp] theorem pad_log (chunkSize : Nat) (io : Io) (entry : ChunkEntry) (start : Nat) :
    (pad chunkSize io entry start).2.log = entry.log := by
  unfold pad
  split_ifs <;> cases io <;> rfl

@[simp] theorem apply_version (chunkSize : Nat) (io : Io) (entry : ChunkEntry)
    (mutation : Mutation) (data : Bytes) :
    (apply chunkSize io entry mutation data).2.version = entry.version := by
  unfold apply
  cases mutation.request.kind <;> dsimp only <;> split_ifs <;> simp

theorem apply_log (chunkSize : Nat) (io : Io) (entry : ChunkEntry)
    (mutation : Mutation) (data : Bytes) :
    (apply chunkSize io entry mutation data).2.log =
      if (apply chunkSize io entry mutation data).1 = .ok then entry.log ++ [mutation]
      else entry.log := by
  unfold apply
  cases mutation.request.kind <;> dsimp only <;> split_ifs <;> simp_all

theorem applied_version {chunkSize : Nat} {io : Io} {entry entry' : ChunkEntry} {code : ResultCode}
    {mutation : Mutation} {data : Bytes}
    (applied : apply chunkSize io entry mutation data = (code, entry')) :
    entry'.version = entry.version := by
  rw [← apply_version chunkSize io entry mutation data, applied]

theorem applied_log {chunkSize : Nat} {io : Io} {entry entry' : ChunkEntry} {code : ResultCode}
    {mutation : Mutation} {data : Bytes}
    (applied : apply chunkSize io entry mutation data = (code, entry')) :
    entry'.log = if code = .ok then entry.log ++ [mutation] else entry.log := by
  have log := apply_log chunkSize io entry mutation data
  rwa [applied] at log

end ChunkStore

/-! ## Mutations -/

inductive MutationOp
  | write (version offset : Nat) (key : BufferKey)
  | append (version : Nat) (key : BufferKey)
  | apply (request : ApplyMutationRequest)
deriving DecidableEq

def MutationOp.version : MutationOp → Nat
  | .write version _ _ => version
  | .append version _ => version
  | .apply request => request.version

def MutationOp.isClient : MutationOp → Bool
  | .apply _ => false
  | _ => true

/-- What the handler has behind it: the mutation lock, the version check, the lease check, the size
check of `Write`, the data taken from the buffer, the length read by `RecordAppend`, the serial,
the local store call. -/
inductive Stage
  | locked
  | versioned
  | leased (secondaries : List ServerId)
  | sized (secondaries : List ServerId)
  | taken (secondaries : List ServerId) (data : Bytes)
  | placed (secondaries : List ServerId) (data : Bytes) (current : Nat)
  | numbered (secondaries : List ServerId) (request : ApplyMutationRequest) (data : Bytes)
  | forwarding (secondaries : List ServerId) (request : ApplyMutationRequest)
deriving DecidableEq

/-- The secondaries of the lease that the mutation was admitted under. -/
def Stage.secondaries : Stage → List ServerId
  | .locked | .versioned => []
  | .leased secondaries | .sized secondaries | .taken secondaries _ | .placed secondaries _ _
  | .numbered secondaries _ _ | .forwarding secondaries _ => secondaries

/-- The handler has checked the version and has not made its store call. -/
def Stage.isChecked : Stage → Bool
  | .locked | .forwarding _ _ => false
  | _ => true

/-- The handler has checked the lease and has not made its store call. -/
def Stage.isAdmitted : Stage → Bool
  | .locked | .versioned | .forwarding _ _ => false
  | _ => true

def Stage.isNumbered : Stage → Bool
  | .numbered _ _ _ | .forwarding _ _ => true
  | _ => false

structure Frame where
  origin : Origin
  op : MutationOp
  stage : Stage
deriving DecidableEq

/-- A `GrantLease` or `UpdateVersion` handler between its `SetVersion` and its lease table call;
`tag` names the request that it will answer. -/
inductive Half
  | grant (version : Nat) (lease : Duration) (secondaries : List ServerId) (tag : Nat)
  | update (version : Nat) (tag : Nat)
deriving DecidableEq

def Half.version : Half → Nat
  | .grant version _ _ _ => version
  | .update version _ => version

def Half.tag : Half → Nat
  | .grant _ _ _ tag => tag
  | .update _ tag => tag

/-- `granted` is a history variable: the secondaries of the last `GrantLease` executed here. -/
structure Replica where
  entry : Option ChunkEntry := none
  slot : Option Slot := none
  buffer : DataBuffer
  frame : Option Frame := none
  halves : List Half := []
  corrupt : Bool := false
  granted : List ServerId := []

structure Response where
  code : ResultCode
  offset : Nat := 0
deriving DecidableEq

/-- What one step of a mutation handler does: the new state, the answer when the handler is
through, and the mutation whose store call was made. -/
structure Outcome where
  replica : Replica
  response : Option Response := none
  stored : Option Mutation := none

namespace Replica

def goto (r : Replica) (origin : Origin) (op : MutationOp) (stage : Stage) : Outcome :=
  { replica := { r with frame := some ⟨origin, op, stage⟩ } }

/-- Answer and let go of the mutation lock. -/
def finish (r : Replica) (code : ResultCode) : Outcome :=
  { replica := { r with frame := none }, response := some { code } }

/-- `LockForMutation`; without a chunk the handler answers at once. -/
def start (r : Replica) (origin : Origin) (op : MutationOp) : Option Outcome :=
  match r.entry, r.frame with
  | none, _ => some { replica := r, response := some { code := .noSuchChunk } }
  | some _, none => some (r.goto origin op .locked)
  | some _, some _ => none

theorem start_cases {r : Replica} {origin : Origin} {op : MutationOp} {out : Outcome}
    (started : r.start origin op = some out) :
    (r.entry = none ∧ out = { replica := r, response := some { code := .noSuchChunk } }) ∨
      (r.frame = none ∧ out = r.goto origin op .locked) := by
  unfold start at started
  split at started <;> cases started
  · exact .inl ⟨by assumption, rfl⟩
  · exact .inr ⟨by assumption, rfl⟩

/-- The store call of the primary, or of a secondary, whose answer is the store's. -/
def store (cfg : Config) (io : Io) (r : Replica) (mutation : Mutation) (data : Bytes) :
    ResultCode × Replica × Option Mutation :=
  match r.entry with
  | none => (.noSuchChunk, r, none)
  | some entry =>
      let result := ChunkStore.apply cfg.chunkSize io entry mutation data
      (result.1, { r with entry := some result.2 }, some mutation)

def checkVersion (r : Replica) (origin : Origin) (op : MutationOp) : Outcome :=
  match r.entry with
  | none => r.finish .noSuchChunk
  | some entry =>
      if entry.version = op.version then r.goto origin op .versioned else r.finish .staleVersion

def checkLease (now : TimePoint) (r : Replica) (origin : Origin) (op : MutationOp) : Outcome :=
  match LeaseTable.check now r.slot with
  | .notHeld => r.finish .notPrimary
  | .expired => r.finish .leaseExpired
  | .primary secondaries => r.goto origin op (.leased secondaries)

def takeData (r : Replica) (origin : Origin) (op : MutationOp) (key : BufferKey)
    (secondaries : List ServerId) : Outcome :=
  match r.buffer.take key with
  | none => r.finish .dataMissing
  | some (data, buffer) => { r with buffer }.goto origin op (.taken secondaries data)

/-- `buffer_.SizeOf` and the range check of `Write`. -/
def checkSize (cfg : Config) (r : Replica) (origin : Origin) (op : MutationOp) (offset : Nat)
    (key : BufferKey) (secondaries : List ServerId) : Outcome :=
  match r.buffer.sizeOf key with
  | none => r.finish .dataMissing
  | some size =>
      if cfg.chunkSize < u64 (offset + size) then r.finish .outOfRange
      else r.goto origin op (.sized secondaries)

def readLength (r : Replica) (origin : Origin) (op : MutationOp) (secondaries : List ServerId)
    (data : Bytes) : Outcome :=
  match r.entry with
  | none => r.finish .noSuchChunk
  | some entry => r.goto origin op (.placed secondaries data entry.data.length)

/-- `NextSerial` and the request that will be forwarded. -/
def number (r : Replica) (origin : Origin) (op : MutationOp) (secondaries : List ServerId) (data : Bytes)
    (version : Nat) (kind : MutationKind) (offset : Nat) (key : BufferKey) : Outcome :=
  let (serial, slot) := LeaseTable.nextSerial r.slot
  { r with slot := some slot }.goto origin op
    (.numbered secondaries { version, serial, kind, offset, key } data)

/-- The primary's own store call: forwarding starts only if it succeeded. -/
def storeLocal (cfg : Config) (io : Io) (r : Replica) (origin : Origin) (op : MutationOp)
    (secondaries : List ServerId) (request : ApplyMutationRequest) (data : Bytes) : Outcome :=
  match r.store cfg io ⟨origin, request⟩ data with
  | (.ok, r, stored) => { r.goto origin op (.forwarding secondaries request) with stored }
  | (_, r, stored) => { r.finish .failed with stored }

/-- The store call that ends `ApplyMutation`. -/
def storeForwarded (cfg : Config) (io : Io) (r : Replica) (origin : Origin)
    (request : ApplyMutationRequest) (data : Bytes) : Outcome :=
  match r.store cfg io ⟨origin, request⟩ data with
  | (code, r, stored) => { r.finish code with stored }

/-- The next mutex-protected step of the handler that holds the mutation lock; a handler that
waits for its secondaries has none of its own. -/
def advance (cfg : Config) (now : TimePoint) (io : Io) (r : Replica) : Option Outcome :=
  match r.frame with
  | none => none
  | some ⟨origin, op, stage⟩ =>
      match stage, op with
      | .locked, _ => some (r.checkVersion origin op)
      | .versioned, .apply request =>
          match request.kind with
          | .pad => some (r.storeForwarded cfg io origin request [])
          | .write => some (r.takeData origin op request.key [])
      | .versioned, _ => some (r.checkLease now origin op)
      | .leased secondaries, .write _ offset key => some (r.checkSize cfg origin op offset key secondaries)
      | .leased secondaries, .append _ key => some (r.takeData origin op key secondaries)
      | .sized secondaries, .write _ _ key => some (r.takeData origin op key secondaries)
      | .taken secondaries data, .write version offset key =>
          some (r.number origin op secondaries data version .write offset key)
      | .taken secondaries data, .append _ _ => some (r.readLength origin op secondaries data)
      | .taken _ data, .apply request =>
          if cfg.chunkSize < u64 (request.offset + data.length) then some (r.finish .outOfRange)
          else some (r.storeForwarded cfg io origin request data)
      | .placed secondaries data current, .append version key =>
          let kind := if cfg.chunkSize < u64 (current + data.length) then .pad else .write
          some (r.number origin op secondaries data version kind current key)
      | .numbered secondaries request data, _ =>
          some (r.storeLocal cfg io origin op secondaries request data)
      | _, _ => none

/-! ## What a step of a mutation handler can do -/

/-- The stages that a step which does not answer leads to, with the slot that it leaves. -/
inductive Follows (now : TimePoint) (r : Replica) (op : MutationOp) :
    Stage → Stage → Option Slot → Prop
  | version {entry : ChunkEntry} : r.entry = some entry → entry.version = op.version →
      Follows now r op .locked .versioned r.slot
  | lease {secondaries : List ServerId} : op.isClient = true →
      LeaseTable.check now r.slot = .primary secondaries →
      Follows now r op .versioned (.leased secondaries) r.slot
  | receive {data : Bytes} : op.isClient = false →
      Follows now r op .versioned (.taken [] data) r.slot
  | size {secondaries : List ServerId} :
      Follows now r op (.leased secondaries) (.sized secondaries) r.slot
  | take {stage : Stage} {secondaries : List ServerId} {data : Bytes} : op.isClient = true →
      stage = .leased secondaries ∨ stage = .sized secondaries →
      Follows now r op stage (.taken secondaries data) r.slot
  | length {secondaries : List ServerId} {data : Bytes} {current : Nat} : op.isClient = true →
      Follows now r op (.taken secondaries data) (.placed secondaries data current) r.slot
  | number {stage : Stage} {secondaries : List ServerId} {data : Bytes}
      {request : ApplyMutationRequest} : op.isClient = true →
      stage = .taken secondaries data ∨ (∃ current, stage = .placed secondaries data current) →
      request.version = op.version → request.serial = (LeaseTable.nextSerial r.slot).1 →
      Follows now r op stage (.numbered secondaries request data)
        (some (LeaseTable.nextSerial r.slot).2)

/-- One step of a mutation handler: it answers, or moves on, or makes its store call. -/
inductive Progress (cfg : Config) (now : TimePoint) (io : Io) (r : Replica) : Outcome → Prop
  | answer {f : Frame} {code : ResultCode} : r.frame = some f → code ≠ .ok →
      Progress cfg now io r { replica := { r with frame := none }, response := some { code } }
  | move {origin : Origin} {op : MutationOp} {stage stage' : Stage} {slot : Option Slot}
      {buffer : DataBuffer} :
      r.frame = some ⟨origin, op, stage⟩ → Follows now r op stage stage' slot →
      Progress cfg now io r
        { replica := { r with buffer, slot, frame := some ⟨origin, op, stage'⟩ } }
  | storeLocal {origin : Origin} {op : MutationOp} {secondaries : List ServerId}
      {request : ApplyMutationRequest} {data : Bytes} {entry entry' : ChunkEntry} :
      r.frame = some ⟨origin, op, .numbered secondaries request data⟩ → r.entry = some entry →
      ChunkStore.apply cfg.chunkSize io entry ⟨origin, request⟩ data = (.ok, entry') →
      Progress cfg now io r
        { replica :=
            { r with entry := some entry', frame := some ⟨origin, op, .forwarding secondaries request⟩ }
          stored := some ⟨origin, request⟩ }
  | storeFailed {origin : Origin} {op : MutationOp} {secondaries : List ServerId}
      {request : ApplyMutationRequest} {data : Bytes} {entry entry' : ChunkEntry} {code : ResultCode} :
      r.frame = some ⟨origin, op, .numbered secondaries request data⟩ → r.entry = some entry →
      ChunkStore.apply cfg.chunkSize io entry ⟨origin, request⟩ data = (code, entry') → code ≠ .ok →
      Progress cfg now io r
        { replica := { r with entry := some entry', frame := none }
          response := some { code := .failed }
          stored := some ⟨origin, request⟩ }
  | storeForwarded {origin : Origin} {stage : Stage} {request : ApplyMutationRequest} {data : Bytes}
      {entry entry' : ChunkEntry} {code : ResultCode} :
      r.frame = some ⟨origin, .apply request, stage⟩ → stage = .versioned ∨ (∃ s d, stage = .taken s d) →
      r.entry = some entry →
      ChunkStore.apply cfg.chunkSize io entry ⟨origin, request⟩ data = (code, entry') →
      Progress cfg now io r
        { replica := { r with entry := some entry', frame := none }
          response := some { code }
          stored := some ⟨origin, request⟩ }

section
variable {cfg : Config} {now : TimePoint} {io : Io} {r : Replica} {origin : Origin}
  {op : MutationOp} {stage : Stage}

theorem checkVersion_progress (frame : r.frame = some ⟨origin, op, .locked⟩) :
    Progress cfg now io r (r.checkVersion origin op) := by
  unfold checkVersion
  cases h : r.entry with
  | none => exact .answer frame (by decide)
  | some entry =>
      dsimp only
      split
      · rename_i same
        exact .move frame (.version h same)
      · exact .answer frame (by decide)

theorem checkLease_progress (frame : r.frame = some ⟨origin, op, .versioned⟩) (client : op.isClient = true) :
    Progress cfg now io r (r.checkLease now origin op) := by
  unfold checkLease
  cases h : LeaseTable.check now r.slot with
  | notHeld => exact .answer frame (by decide)
  | expired => exact .answer frame (by decide)
  | primary secondaries => exact .move frame (.lease client h)

theorem takeData_progress {key : BufferKey} {secondaries : List ServerId}
    (frame : r.frame = some ⟨origin, op, stage⟩)
    (follows : ∀ data, Follows now r op stage (.taken secondaries data) r.slot) :
    Progress cfg now io r (r.takeData origin op key secondaries) := by
  unfold takeData
  cases r.buffer.take key with
  | none => exact .answer frame (by decide)
  | some taken => exact .move frame (follows taken.1)

theorem checkSize_progress {offset : Nat} {key : BufferKey} {secondaries : List ServerId}
    (frame : r.frame = some ⟨origin, op, .leased secondaries⟩) :
    Progress cfg now io r (r.checkSize cfg origin op offset key secondaries) := by
  unfold checkSize
  cases r.buffer.sizeOf key with
  | none => exact .answer frame (by decide)
  | some size =>
      dsimp only
      split
      · exact .answer frame (by decide)
      · exact .move frame .size

theorem readLength_progress {secondaries : List ServerId} {data : Bytes}
    (frame : r.frame = some ⟨origin, op, .taken secondaries data⟩) (client : op.isClient = true) :
    Progress cfg now io r (r.readLength origin op secondaries data) := by
  unfold readLength
  cases r.entry with
  | none => exact .answer frame (by decide)
  | some entry => exact .move frame (.length client)

theorem storeLocal_progress {secondaries : List ServerId} {request : ApplyMutationRequest}
    {data : Bytes} (frame : r.frame = some ⟨origin, op, .numbered secondaries request data⟩) :
    Progress cfg now io r (r.storeLocal cfg io origin op secondaries request data) := by
  unfold storeLocal store
  cases h : r.entry with
  | none => exact .answer frame (by decide)
  | some entry =>
      dsimp only
      cases applied : ChunkStore.apply cfg.chunkSize io entry ⟨origin, request⟩ data with
      | mk code entry' =>
          cases code with
          | ok => exact .storeLocal frame h applied
          | _ => exact .storeFailed frame h applied (by decide)

theorem storeForwarded_progress {request : ApplyMutationRequest} {data : Bytes}
    (frame : r.frame = some ⟨origin, .apply request, stage⟩)
    (ready : stage = .versioned ∨ ∃ s d, stage = .taken s d) :
    Progress cfg now io r (r.storeForwarded cfg io origin request data) := by
  unfold storeForwarded store
  cases h : r.entry with
  | none => exact .answer frame (by decide)
  | some entry => exact .storeForwarded frame ready h rfl

/-- The inversion of `advance` that every invariant of the mutation path uses. -/
theorem advance_progress {out : Outcome} (h : r.advance cfg now io = some out) :
    Progress cfg now io r out := by
  unfold advance at h
  cases frame : r.frame with
  | none => simp [frame] at h
  | some f =>
      obtain ⟨origin, op, stage⟩ := f
      simp only [frame] at h
      cases stage with
      | locked =>
          cases h
          exact checkVersion_progress frame
      | versioned =>
          cases op with
          | apply request =>
              dsimp only at h
              cases kind : request.kind with
              | pad =>
                  simp only [kind, Option.some.injEq] at h
                  subst h
                  exact storeForwarded_progress frame (.inl rfl)
              | write =>
                  simp only [kind, Option.some.injEq] at h
                  subst h
                  exact takeData_progress frame fun _ => .receive rfl
          | _ =>
              cases h
              exact checkLease_progress frame rfl
      | leased secondaries =>
          cases op with
          | write version offset key =>
              cases h
              exact checkSize_progress frame
          | append version key =>
              cases h
              exact takeData_progress frame fun _ => .take rfl (.inl rfl)
          | apply request => cases h
      | sized secondaries =>
          cases op with
          | write version offset key =>
              cases h
              exact takeData_progress frame fun _ => .take rfl (.inr rfl)
          | _ => cases h
      | taken secondaries data =>
          cases op with
          | write version offset key =>
              cases h
              exact .move frame (.number rfl (.inl rfl) rfl rfl)
          | append version key =>
              cases h
              exact readLength_progress frame rfl
          | apply request =>
              dsimp only at h
              split at h <;> cases h
              · exact .answer frame (by decide)
              · exact storeForwarded_progress frame (.inr ⟨_, _, rfl⟩)
      | placed secondaries data current =>
          cases op with
          | append version key =>
              cases h
              exact .move frame (.number rfl (.inr ⟨_, rfl⟩) rfl rfl)
          | _ => cases h
      | numbered secondaries request data =>
          cases h
          exact storeLocal_progress frame
      | forwarding secondaries request => cases h

end

/-- The answer after `ForwardMutation`. -/
def afterForward (request : ApplyMutationRequest) (reached : Bool) : MutationOp → Response
  | .append _ _ =>
      if ¬ reached then { code := .failed }
      else match request.kind with
        | .pad => { code := .retryNextChunk }
        | .write => { code := .ok, offset := request.offset }
  | _ => if reached then { code := .ok } else { code := .failed }

theorem afterForward_ok {request : ApplyMutationRequest} {reached : Bool} {op : MutationOp}
    (ok : (afterForward request reached op).code = .ok) : reached = true := by
  cases reached with
  | true => rfl
  | false => cases op <;> simp [afterForward] at ok

/-- `ForwardMutation` is through; `reached` says that every secondary answered OK. -/
def forwarded (r : Replica) (reached : Bool) : Option Outcome :=
  match r.frame with
  | some ⟨_, op, .forwarding _ request⟩ =>
      some { replica := { r with frame := none }, response := some (afterForward request reached op) }
  | _ => none

theorem forwarded_replica {r : Replica} {reached : Bool} {out : Outcome}
    (h : r.forwarded reached = some out) : out.replica = { r with frame := none } := by
  unfold forwarded at h
  split at h
  · cases h
    rfl
  · cases h

/-! ## Versions and leases -/

/-- `SetVersion` in `GrantLease` and `UpdateVersion`: the code, and the state that `half` is left
to when it succeeded. -/
def setVersion (io : Io) (r : Replica) (version : Nat) (half : Half) : ResultCode × Replica :=
  match r.entry with
  | none => (.noSuchChunk, r)
  | some entry =>
      match ChunkStore.setVersion io entry version with
      | (.ok, entry) => (.ok, { r with entry := some entry, halves := r.halves ++ [half] })
      | (code, entry) => (code, { r with entry := some entry })

theorem setVersion_cases (io : Io) (r : Replica) (version : Nat) (half : Half) :
    (∃ code, code ≠ .ok ∧ r.setVersion io version half = (code, r)) ∨
      ∃ entry, r.entry = some entry ∧ (io = .ok ∨ entry.version = version) ∧
        r.setVersion io version half =
          (.ok, { r with entry := some { entry with version }, halves := r.halves ++ [half] }) := by
  unfold setVersion ChunkStore.setVersion
  cases found : r.entry with
  | none => exact .inl ⟨_, by decide, rfl⟩
  | some entry =>
      by_cases same : entry.version = version
      · subst same
        exact .inr ⟨entry, rfl, .inr rfl, by simp⟩
      · by_cases written : io = .ok
        · exact .inr ⟨entry, rfl, .inl written, by simp [same, written]⟩
        · refine .inl ⟨.failed, by decide, ?_⟩
          simp [same, written, ← found]

/-- The lease table call of the handler, after which it answers OK. -/
def completeHalf (cfg : Config) (now : TimePoint) (r : Replica) (half : Half) : Replica :=
  let r := { r with halves := r.halves.erase half }
  match half with
  | .grant _ lease secondaries _ =>
      { r with
        slot := some (LeaseTable.grant cfg.leaseClockSkewMargin now lease secondaries r.slot)
        granted := secondaries }
  | .update _ _ => { r with slot := LeaseTable.revoke r.slot }

def revokeLease (r : Replica) : Replica := { r with slot := LeaseTable.revoke r.slot }

def extendLease (cfg : Config) (now : TimePoint) (lease : Duration) (r : Replica) : Replica :=
  { r with slot := LeaseTable.extend cfg.leaseClockSkewMargin now lease r.slot }

/-- `CreateChunk`, with the bytes of the chunk it copies; a chunk that is there already at the
version counts as created. -/
def createChunk (r : Replica) (version : Nat) (data : Bytes) : ResultCode × Replica :=
  match r.entry with
  | some entry => (if entry.version = version then .ok else .failed, r)
  | none => (.ok, { r with entry := some { version, data } })

/-- `store_->Remove`. -/
def remove (r : Replica) : Replica :=
  { r with entry := none, corrupt := false }

structure Keeps (r r' : Replica) : Prop where
  version : r'.entry.map (·.version) = r.entry.map (·.version)
  held : LeaseTable.heldUntil r'.slot = LeaseTable.heldUntil r.slot
  halves : r'.halves = r.halves
  corrupt : r'.corrupt = r.corrupt
  granted : r'.granted = r.granted

theorem Keeps.refl (r : Replica) : Keeps r r := ⟨rfl, rfl, rfl, rfl, rfl⟩

theorem Follows.held {now : TimePoint} {r : Replica} {op : MutationOp} {stage stage' : Stage}
    {slot : Option Slot} (follows : Follows now r op stage stage' slot) :
    LeaseTable.heldUntil slot = LeaseTable.heldUntil r.slot := by
  cases follows with
  | number => exact LeaseTable.heldUntil_nextSerial r.slot
  | _ => rfl

theorem Progress.keeps {cfg : Config} {now : TimePoint} {io : Io} {r : Replica} {out : Outcome}
    (progress : Progress cfg now io r out) : Keeps r out.replica := by
  cases progress with
  | answer => exact ⟨rfl, rfl, rfl, rfl, rfl⟩
  | move _ follows => exact ⟨rfl, follows.held, rfl, rfl, rfl⟩
  | storeLocal _ found applied =>
      have same := ChunkStore.applied_version applied
      exact ⟨by simp [found, same], rfl, rfl, rfl, rfl⟩
  | storeFailed _ found applied _ =>
      have same := ChunkStore.applied_version applied
      exact ⟨by simp [found, same], rfl, rfl, rfl, rfl⟩
  | storeForwarded _ _ found applied =>
      have same := ChunkStore.applied_version applied
      exact ⟨by simp [found, same], rfl, rfl, rfl, rfl⟩

theorem start_keeps {r : Replica} {origin : Origin} {op : MutationOp} {out : Outcome}
    (started : r.start origin op = some out) : Keeps r out.replica := by
  rcases start_cases started with ⟨_, rfl⟩ | ⟨_, rfl⟩ <;> exact ⟨rfl, rfl, rfl, rfl, rfl⟩

end Replica

end Gfs.Chunkserver
