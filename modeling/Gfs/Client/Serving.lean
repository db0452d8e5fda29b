import Gfs.Chunkserver.Appends
import Gfs.Client.Servers

/-!
# A mutation handler that runs by itself

What the handler of a client's mutation comes to at the primary, its data having been pushed, and
what the forwarded mutation comes to at a secondary with the same copy.
-/

namespace Gfs.Chunkserver

theorem DataBuffer.entryOf_put {buffer : DataBuffer} {key : BufferKey} {data : Bytes} :
    ∃ node, (buffer.put key data).entryOf key = some ⟨node, key, data⟩ := by
  unfold DataBuffer.put DataBuffer.entryOf
  simp

/-- The request that a handler forwards, the chunk and the data being what they are. -/
structure Placed (chunkSize : Nat) (old data : Bytes) (op : MutationOp)
    (request : ApplyMutationRequest) : Prop where
  version : request.version = op.version
  key : request.key = op.key
  write : ∀ version offset key, op = .write version offset key →
    request.kind = .write ∧ request.offset = offset ∧ u64 (offset + data.length) ≤ chunkSize
  append : ∀ version key, op = .append version key → request.offset = old.length ∧
    request.kind = if chunkSize < u64 (old.length + data.length) then .pad else .write

/-- The bytes of a chunk after a store call that went well. -/
def ApplyMutationRequest.result (chunkSize : Nat) (request : ApplyMutationRequest) (data old : Bytes) :
    Bytes :=
  match request.kind with
  | .pad => ChunkStore.padded chunkSize old request.offset
  | .write => if data = [] then old else Lib.Overlay.overlay 0 old request.offset data

end Gfs.Chunkserver

namespace Gfs.Client.World
open Chunkserver

variable {cfg : Config} {now : TimePoint} {r : Chunkserver.Replica} {entry : ChunkEntry}
  {data : Bytes} {node : Nat} {op : MutationOp} {origin : Origin}

def SameLease (slot slot' : Option Slot) : Prop :=
  ∀ s ∈ slot', s.held = true → ∃ s' ∈ slot, s'.held = true ∧ s'.secondaries = s.secondaries

theorem SameLease.refl (slot : Option Slot) : SameLease slot slot := fun s there held =>
  ⟨s, there, held, rfl⟩

theorem SameLease.nextSerial (slot : Option Slot) :
    SameLease slot (some (LeaseTable.nextSerial slot).2) := by
  rintro s ⟨⟩ held
  cases slot with
  | none => cases held
  | some s => exact ⟨s, rfl, held, rfl⟩

structure Refused (r : Chunkserver.Replica) (out : Outcome) : Prop where
  answer : ∃ code, code ≠ .ok ∧ code ≠ .retryNextChunk ∧ out.response = some { code }
  entry : out.replica.entry = r.entry
  lease : SameLease r.slot out.replica.slot

/-- A handler that has changed its own copy and forwards the mutation. -/
structure Sends (cfg : Config) (now : TimePoint) (r : Chunkserver.Replica) (entry : ChunkEntry)
    (data : Bytes) (origin : Origin) (op : MutationOp) (secondaries : List ServerId)
    (request : ApplyMutationRequest) (out : Outcome) : Prop where
  response : out.response = none
  frame : out.replica.frame = some ⟨origin, op, .forwarding secondaries request⟩
  leased : LeaseTable.check now r.slot = .primary secondaries
  version : entry.version = op.version
  placed : Placed cfg.chunkSize entry.data data op request
  stored : ∃ entry', out.replica.entry = some entry' ∧
    ChunkStore.apply cfg.chunkSize .ok entry ⟨origin, request⟩ data = (.ok, entry')
  lease : SameLease r.slot out.replica.slot

theorem apply_refused {chunkSize : Nat} {mutation : Chunkserver.Mutation} {code : ResultCode}
    {entry' : ChunkEntry}
    (applied : ChunkStore.apply chunkSize .ok entry mutation data = (code, entry'))
    (refused : code ≠ .ok) : entry' = entry := by
  unfold ChunkStore.apply at applied
  cases kind : mutation.request.kind with
  | write =>
      simp only [kind, ChunkStore.write] at applied
      split_ifs at applied <;> simp_all
  | pad =>
      simp only [kind, ChunkStore.pad] at applied
      split_ifs at applied <;> simp_all

/-- Whether a store call goes well does not depend on the chunk. -/
theorem apply_code {chunkSize : Nat} {mutation : Chunkserver.Mutation} {other : ChunkEntry} :
    (ChunkStore.apply chunkSize .ok entry mutation data).1 =
      (ChunkStore.apply chunkSize .ok other mutation data).1 := by
  unfold ChunkStore.apply ChunkStore.write ChunkStore.pad
  cases mutation.request.kind <;> dsimp only <;> split_ifs <;> simp_all

theorem apply_result {chunkSize : Nat} {mutation : Chunkserver.Mutation} {entry' : ChunkEntry}
    (applied : ChunkStore.apply chunkSize .ok entry mutation data = (.ok, entry')) :
    entry'.data = mutation.request.result chunkSize data entry.data := by
  unfold ChunkStore.apply at applied
  unfold ApplyMutationRequest.result
  cases kind : mutation.request.kind with
  | write =>
      simp only [kind, ChunkStore.write] at applied
      split_ifs at applied <;> simp_all <;> subst applied <;> rfl
  | pad =>
      simp only [kind, ChunkStore.pad] at applied
      split_ifs at applied <;> simp_all
      subst applied
      rfl

theorem serve_next {out : Outcome} {steps : Nat} (moved : r.advance cfg now .ok = some out)
    (quiet : out.response = none) : serve cfg now (steps + 1) r = serve cfg now steps out.replica := by
  simp [serve, moved, quiet]

theorem serve_last {out : Outcome} {steps : Nat} (moved : r.advance cfg now .ok = some out)
    (answered : out.response.isSome = true) : serve cfg now (steps + 1) r = out := by
  simp [serve, moved, answered]

theorem Refused.finish {r' : Chunkserver.Replica} {code : ResultCode} {out : Outcome} {steps : Nat}
    (answered : r'.advance cfg now .ok = some (r'.finish code)) (bad : code ≠ .ok)
    (full : code ≠ .retryNextChunk) (entry : r'.entry = r.entry) (slot : r'.slot = r.slot)
    (is : out = serve cfg now (steps + 1) r') : Refused r out := by
  rw [serve_last answered rfl] at is
  subst is
  exact ⟨⟨code, bad, full, rfl⟩, entry, slot ▸ .refl _⟩

variable {secondaries : List ServerId} {request : ApplyMutationRequest} {buffer : DataBuffer}
  {out : Outcome} {steps : Nat}

theorem serve_numbered (found : r.entry = some entry)
    (leased : LeaseTable.check now r.slot = .primary secondaries)
    (same : entry.version = op.version) (placed : Placed cfg.chunkSize entry.data data op request)
    (is : out = serve cfg now (steps + 1)
      ({ r with buffer, slot := some (LeaseTable.nextSerial r.slot).2 }.goto origin op
        (.numbered secondaries request data)).replica) (more : steps ≠ 0) :
    Refused r out ∨ Sends cfg now r entry data origin op secondaries request out := by
  obtain ⟨steps, rfl⟩ := Nat.exists_eq_succ_of_ne_zero more
  cases applied : ChunkStore.apply cfg.chunkSize .ok entry ⟨origin, request⟩ data with
  | mk code entry' =>
  by_cases ok : code = .ok
  · subst ok
    simp [serve, Replica.advance, Replica.storeLocal, Replica.store, Replica.goto, found, applied] at is
    subst is
    exact .inr ⟨rfl, rfl, leased, same, placed, ⟨entry', rfl, applied⟩, .nextSerial _⟩
  · have kept := apply_refused applied ok
    subst kept
    have is : out = { replica := { r with
        buffer
        slot := some (LeaseTable.nextSerial r.slot).2
        frame := none }
                      response := some { code := .failed }
                      stored := some ⟨origin, request⟩ } := by
      cases code <;>
        simp_all [serve, Replica.advance, Replica.goto, Replica.storeLocal, Replica.store,
          Replica.finish]
    subst is
    exact .inl ⟨⟨.failed, by decide, by decide, rfl⟩, rfl, .nextSerial _⟩

theorem take_eq {key : BufferKey} (waits : r.buffer.entryOf key = some ⟨node, key, data⟩) :
    r.buffer.take key = some (data, r.buffer.unlink ⟨node, key, data⟩) := by
  rw [DataBuffer.take, waits]
  rfl

theorem serve_write {version offset : Nat} {key : BufferKey} (found : r.entry = some entry)
    (waits : r.buffer.entryOf key = some ⟨node, key, data⟩)
    (leased : LeaseTable.check now r.slot = .primary secondaries)
    (same : entry.version = (MutationOp.write version offset key).version)
    (is : out = serve cfg now 5
      (r.goto origin (.write version offset key) (.leased secondaries)).replica) :
    Refused r out ∨ ∃ request, 
      Sends cfg now r entry data origin (.write version offset key) secondaries request out := by
  have size : r.buffer.sizeOf key = some data.length := by
    rw [DataBuffer.sizeOf, waits]
    rfl
  by_cases outside : cfg.chunkSize < u64 (offset + data.length)
  · have answered : (r.goto origin (.write version offset key) (.leased secondaries)).replica.advance
        cfg now .ok = some (r.finish .outOfRange) := by
      simp [Replica.advance, Replica.goto, Replica.checkSize, Replica.finish, size, outside]
    exact .inl (.finish answered (by decide) (by decide) rfl rfl is)
  · have sized : (r.goto origin (.write version offset key) (.leased secondaries)).replica.advance
        cfg now .ok = some (r.goto origin (.write version offset key) (.sized secondaries)) := by
      simp [Replica.advance, Replica.goto, Replica.checkSize, size, outside]
    have taken : (r.goto origin (.write version offset key) (.sized secondaries)).replica.advance
        cfg now .ok = some ({ r with buffer := r.buffer.unlink ⟨node, key, data⟩ }.goto origin
          (.write version offset key) (.taken secondaries data)) := by
      simp [Replica.advance, Replica.goto, Replica.takeData, take_eq waits]
    rw [serve_next sized rfl, serve_next taken rfl, serve_next rfl rfl] at is
    refine (serve_numbered found leased same ⟨rfl, rfl, ?_, nofun⟩ is (by decide)).imp_right
      fun sends => ⟨_, sends⟩
    rintro version offset key ⟨⟩
    exact ⟨rfl, rfl, Nat.le_of_not_lt outside⟩

theorem serve_append {version : Nat} {key : BufferKey} (found : r.entry = some entry)
    (waits : r.buffer.entryOf key = some ⟨node, key, data⟩)
    (leased : LeaseTable.check now r.slot = .primary secondaries)
    (same : entry.version = (MutationOp.append version key).version)
    (is : out = serve cfg now 5
      (r.goto origin (.append version key) (.leased secondaries)).replica) :
    Refused r out ∨ ∃ request, 
      Sends cfg now r entry data origin (.append version key) secondaries request out := by
  have taken : (r.goto origin (.append version key) (.leased secondaries)).replica.advance
      cfg now .ok = some ({ r with buffer := r.buffer.unlink ⟨node, key, data⟩ }.goto origin
        (.append version key) (.taken secondaries data)) := by
    simp [Replica.advance, Replica.goto, Replica.takeData, take_eq waits]
  have placed : ({ r with buffer := r.buffer.unlink ⟨node, key, data⟩ }.goto origin
        (.append version key) (.taken secondaries data)).replica.advance cfg now .ok =
      some ({ r with buffer := r.buffer.unlink ⟨node, key, data⟩ }.goto origin
        (.append version key) (.placed secondaries data entry.data.length)) := by
    simp [Replica.advance, Replica.goto, Replica.readLength, found]
  rw [serve_next taken rfl, serve_next placed rfl, serve_next rfl rfl] at is
  refine (serve_numbered found leased same ⟨rfl, rfl, nofun, ?_⟩ is (by decide)).imp_right
    fun sends => ⟨_, sends⟩
  rintro version key ⟨⟩
  exact ⟨rfl, rfl⟩

theorem serve_client (found : r.entry = some entry)
    (waits : r.buffer.entryOf op.key = some ⟨node, op.key, data⟩) (client : op.isClient = true)
    (is : out = serve cfg now 7 (r.goto origin op .locked).replica) :
    Refused r out ∨ ∃ secondaries request,
      Sends cfg now r entry data origin op secondaries request out := by
  by_cases same : entry.version = op.version
  · have versioned : (r.goto origin op .locked).replica.advance cfg now .ok =
        some (r.goto origin op .versioned) := by
      simp [Replica.advance, Replica.goto, Replica.checkVersion, found, same]
    have leasing : (r.goto origin op .versioned).replica.advance cfg now .ok =
        some ((r.goto origin op .versioned).replica.checkLease now origin op) := by
      cases op with
      | apply => cases client
      | _ => rfl
    rw [serve_next versioned rfl] at is
    unfold Replica.checkLease at leasing
    cases checked : LeaseTable.check now r.slot with
    | notHeld =>
        have answered : (r.goto origin op .versioned).replica.advance cfg now .ok =
            some (r.finish .notPrimary) := by
          rw [leasing]
          simp [Replica.goto, Replica.finish, checked]
        exact .inl (.finish answered (by decide) (by decide) rfl rfl is)
    | expired =>
        have answered : (r.goto origin op .versioned).replica.advance cfg now .ok =
            some (r.finish .leaseExpired) := by
          rw [leasing]
          simp [Replica.goto, Replica.finish, checked]
        exact .inl (.finish answered (by decide) (by decide) rfl rfl is)
    | primary secondaries =>
        have leased : (r.goto origin op .versioned).replica.advance cfg now .ok =
            some (r.goto origin op (.leased secondaries)) := by
          rw [leasing]
          simp [Replica.goto, checked]
        rw [serve_next leased rfl] at is
        cases op with
        | write => exact (serve_write found waits checked same is).imp_right fun sends => ⟨_, sends⟩
        | append =>
            exact (serve_append found waits checked same is).imp_right fun sends => ⟨_, sends⟩
        | apply => cases client
  · have answered : (r.goto origin op .locked).replica.advance cfg now .ok =
        some (r.finish .staleVersion) := by
      simp [Replica.advance, Replica.goto, Replica.checkVersion, Replica.finish, found, same]
    exact .inl (.finish answered (by decide) (by decide) rfl rfl is)

/-- A secondary whose copy is that of the primary does what the primary did. -/
theorem serve_apply {entry' : ChunkEntry} (found : r.entry = some entry)
    (waits : r.buffer.entryOf request.key = some ⟨node, request.key, data⟩)
    (same : entry.version = request.version)
    (applied : ChunkStore.apply cfg.chunkSize .ok entry ⟨origin, request⟩ data = (.ok, entry'))
    (is : out = serve cfg now 7 (r.goto origin (.apply request) .locked).replica) :
    out.response = some { code := .ok } ∧ out.replica.entry = some entry' ∧
      out.replica.slot = r.slot := by
  have versioned : (r.goto origin (.apply request) .locked).replica.advance cfg now .ok =
      some (r.goto origin (.apply request) .versioned) := by
    simp [Replica.advance, Replica.goto, Replica.checkVersion, MutationOp.version, found, same]
  rw [serve_next versioned rfl] at is
  cases kind : request.kind with
  | pad =>
      have whole : ChunkStore.apply cfg.chunkSize .ok entry ⟨origin, request⟩ [] = (.ok, entry') := by
        rw [← applied]
        simp [ChunkStore.apply, kind]
      have answered : (r.goto origin (.apply request) .versioned).replica.advance cfg now .ok =
          some { { r with entry := some entry' }.finish .ok with stored := some ⟨origin, request⟩ } := by
        simp [Replica.advance, Replica.goto, Replica.finish, kind, Replica.storeForwarded,
          Replica.store, found, whole]
      rw [serve_last answered rfl] at is
      subst is
      exact ⟨rfl, rfl, rfl⟩
  | write =>
      have inside : ¬ cfg.chunkSize < u64 (request.offset + data.length) := by
        intro outside
        simp [ChunkStore.apply, kind, ChunkStore.write, outside] at applied
      have taken : (r.goto origin (.apply request) .versioned).replica.advance cfg now .ok =
          some ({ r with buffer := r.buffer.unlink ⟨node, request.key, data⟩ }.goto origin
            (.apply request) (.taken [] data)) := by
        simp [Replica.advance, Replica.goto, kind, Replica.takeData, take_eq waits]
      have answered : ({ r with buffer := r.buffer.unlink ⟨node, request.key, data⟩ }.goto origin
            (.apply request) (.taken [] data)).replica.advance cfg now .ok =
          some { { r with
            buffer := r.buffer.unlink ⟨node, request.key, data⟩
            entry := some entry' }.finish .ok with stored := some ⟨origin, request⟩ } := by
        simp [Replica.advance, Replica.goto, Replica.finish, Replica.storeForwarded, Replica.store,
          found, inside, applied]
      rw [serve_next taken rfl, serve_last answered rfl] at is
      subst is
      exact ⟨rfl, rfl, rfl⟩

end Gfs.Client.World
