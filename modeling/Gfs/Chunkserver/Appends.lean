import Gfs.Chunkserver.Order

/-!
# Record appends under one lease

The runs of `Order` from the moment that a lease is granted, without the calls of the master that
end it. The offset of a record is the length of the chunk on the primary, below which all that is
still on its way to a secondary lies.
-/

namespace Gfs.Chunkserver
open Lib.Overlay (overlay length_overlay)

/-! ## The data buffer -/

namespace DataBuffer

structure Pushed (record : BufferKey → Bytes) (buffer : DataBuffer) : Prop where
  data : ∀ e ∈ buffer.lru, e.data = record e.key ∧ e.data.length < 2 ^ 63
  keys : ∀ place ∈ buffer.index, ∀ e ∈ buffer.lru, e.node = place.2 → e.key = place.1
  nodes : ∀ e ∈ buffer.lru, e.node < buffer.nextNode
  places : ∀ place ∈ buffer.index, place.2 < buffer.nextNode

section
variable {record : BufferKey → Bytes} {buffer : DataBuffer} {key : BufferKey} {data : Bytes}

theorem Pushed.unlink (pushed : Pushed record buffer) (entry : BufferEntry) :
    Pushed record (buffer.unlink entry) where
  data e member := pushed.data e (List.mem_of_mem_filter member)
  keys place held e member :=
    pushed.keys place (List.mem_of_mem_filter held) e (List.mem_of_mem_filter member)
  nodes e member := pushed.nodes e (List.mem_of_mem_filter member)
  places place held := pushed.places place (List.mem_of_mem_filter held)

theorem Pushed.evict (pushed : Pushed record buffer) (incoming rounds : Nat) :
    Pushed record (evict incoming rounds buffer) := by
  induction rounds generalizing buffer with
  | zero => exact pushed
  | succ rounds ih =>
      unfold DataBuffer.evict
      split
      · exact pushed
      · split
        · exact ih (pushed.unlink _)
        · exact pushed

theorem Pushed.put (pushed : Pushed record buffer) (is : data = record key)
    (short : data.length < 2 ^ 63) : Pushed record (buffer.put key data) := by
  unfold DataBuffer.put
  dsimp only
  generalize cleared : (buffer.entryOf key).elim buffer buffer.unlink = fresh
  have roomy : Pushed record (DataBuffer.evict data.length fresh.lru.length fresh) := by
    apply Pushed.evict
    subst cleared
    cases buffer.entryOf key with
    | none => exact pushed
    | some entry => exact pushed.unlink entry
  generalize DataBuffer.evict data.length fresh.lru.length fresh = roomy at roomy
  constructor
  · intro e member
    rcases List.mem_cons.mp member with rfl | old
    · exact ⟨is, short⟩
    · exact roomy.data e old
  · intro place held e member same
    rcases List.mem_cons.mp held with rfl | held
    · rcases List.mem_cons.mp member with rfl | old
      · rfl
      · exact absurd same (roomy.nodes e old).ne
    · have held := List.mem_of_mem_filter held
      rcases List.mem_cons.mp member with rfl | old
      · exact absurd same.symm (roomy.places place held).ne
      · exact roomy.keys place held e old same
  · intro e member
    rcases List.mem_cons.mp member with rfl | old
    · exact Nat.lt_succ_self _
    · exact Nat.lt_succ_of_lt (roomy.nodes e old)
  · intro place held
    rcases List.mem_cons.mp held with rfl | held
    · exact Nat.lt_succ_self _
    · exact Nat.lt_succ_of_lt (roomy.places place (List.mem_of_mem_filter held))

theorem Pushed.take {rest : DataBuffer} (pushed : Pushed record buffer)
    (taken : buffer.take key = some (data, rest)) :
    data = record key ∧ data.length < 2 ^ 63 ∧ Pushed record rest := by
  obtain ⟨entry, found, same⟩ := Option.map_eq_some_iff.mp taken
  cases same
  obtain ⟨node, indexed, listed⟩ := Option.bind_eq_some_iff.mp found
  have member : entry ∈ buffer.lru := List.mem_of_find?_eq_some listed
  have here : entry.node = node := by simpa using List.find?_some listed
  have held : (key, node) ∈ buffer.index := by
    obtain ⟨_, _, split, -⟩ := List.lookup_eq_some_iff.mp indexed
    rw [split]
    simp
  have same : entry.key = key := pushed.keys _ held entry member here
  obtain ⟨is, short⟩ := pushed.data entry member
  exact ⟨same ▸ is, short, pushed.unlink entry⟩

end

end DataBuffer

/-! ## The chunk store -/

namespace ChunkStore

section
variable {data new record : Bytes} {offset place index : Nat}

theorem getElem?_overlay_behind (outside : offset + new.length ≤ index)
    (inside : index < data.length) : (overlay 0 data offset new)[index]? = data[index]? := by
  have head : ((data ++ List.replicate (offset - data.length) 0).take offset ++ new).length =
      offset + new.length := by
    rw [List.length_append, List.length_take, List.length_append, List.length_replicate]
    omega
  unfold overlay
  dsimp only
  rw [List.getElem?_append_right (by rw [head]; exact outside), head, List.getElem?_drop,
    Nat.add_sub_cancel' outside, List.getElem?_append_left inside]

theorem getElem?_overlay_inside (inside : index < new.length) :
    (overlay 0 data offset new)[offset + index]? = new[index]? := by
  have head : ((data ++ List.replicate (offset - data.length) 0).take offset).length = offset := by
    rw [List.length_take, List.length_append, List.length_replicate]
    omega
  unfold overlay
  dsimp only
  rw [List.append_assoc, List.getElem?_append_right (by rw [head]; omega), head,
    Nat.add_sub_cancel_left, List.getElem?_append_left inside]

theorem prefix_drop_iff :
    record <+: data.drop place ↔ ∀ index < record.length, data[place + index]? = record[index]? := by
  rw [List.prefix_iff_getElem?]
  constructor
  · intro stands index inside
    rw [← List.getElem?_drop, stands index inside, List.getElem?_eq_getElem inside]
  · intro stands index inside
    rw [List.getElem?_drop, stands index inside, List.getElem?_eq_getElem inside]

theorem length_of_prefix (stands : record <+: data.drop place) (some : record ≠ []) :
    place + record.length ≤ data.length := by
  have length := stands.length_le
  have positive := List.length_pos_iff.mpr some
  rw [List.length_drop] at length
  omega

theorem prefix_of_kept {data' : Bytes} (stands : record <+: data.drop place)
    (kept : ∀ index, place ≤ index → index < place + record.length → index < data.length →
      data'[index]? = data[index]?) : record <+: data'.drop place := by
  rw [prefix_drop_iff] at stands ⊢
  intro index inside
  have here := stands index inside
  rw [← here]
  apply kept _ (Nat.le_add_right _ _) (Nat.add_lt_add_left inside _)
  rw [List.getElem?_eq_getElem inside] at here
  exact (List.getElem?_eq_some_iff.mp here).1

theorem prefix_overlay_self : new <+: (overlay 0 data place new).drop place := by
  rw [prefix_drop_iff]
  exact fun index inside => getElem?_overlay_inside inside

theorem prefix_overlay_again {n : Nat} (stands : record <+: data.drop place) :
    record <+: (overlay 0 data place (record.take n)).drop place := by
  rw [prefix_drop_iff] at stands ⊢
  intro index inside
  have here := stands index inside
  by_cases written : index < (record.take n).length
  · rw [getElem?_overlay_inside written, List.getElem?_take_of_lt]
    rw [List.length_take] at written
    omega
  · rw [getElem?_overlay_behind, here]
    · omega
    · rw [List.getElem?_eq_getElem inside] at here
      exact (List.getElem?_eq_some_iff.mp here).1

theorem prefix_overlay_below (stands : record <+: data.drop place)
    (below : offset + new.length ≤ place) : record <+: (overlay 0 data offset new).drop place :=
  prefix_of_kept stands fun index from' _ inside =>
    getElem?_overlay_behind (by omega) inside

theorem prefix_take {data' : Bytes} (stands : record <+: data.drop place)
    (stands' : record <+: data'.drop place) :
    record <+: (data'.take data.length).drop place := by
  by_cases empty : record = []
  · subst empty
    exact List.nil_prefix
  · have inside := length_of_prefix stands empty
    rw [prefix_drop_iff] at stands' ⊢
    intro index bound
    rw [List.getElem?_take_of_lt (by omega)]
    exact stands' index bound

theorem length_overlay_take {n : Nat} :
    ((overlay 0 data offset new).take data.length).length = data.length ∧
      data.length ≤ (overlay 0 data offset (new.take n)).length := by
  have grown : ∀ new : Bytes, data.length ≤ (overlay 0 data offset new).length := by
    intro new
    by_cases empty : new = []
    · subst empty
      simp only [overlay, List.append_nil, List.length_nil, Nat.add_zero, List.take_append_drop,
        List.length_append]
      exact Nat.le_add_right _ _
    · rw [length_overlay empty]
      exact Nat.le_max_left _ _
  exact ⟨by rw [List.length_take]; exact Nat.min_eq_left (grown new), grown _⟩

end

/-! ### What a store call leaves of a chunk -/

inductive Stored (chunkSize : Nat) (old : Bytes) (request : ApplyMutationRequest) (data : Bytes) :
    ResultCode → Bytes → Prop
  | refused {code : ResultCode} : code ≠ .ok → Stored chunkSize old request data code old
  | nothing : request.kind = .write → data = [] → Stored chunkSize old request data .ok old
  | written {code : ResultCode} : request.kind = .write → data ≠ [] →
      request.offset + data.length ≤ chunkSize →
      Stored chunkSize old request data code (overlay 0 old request.offset data)
  | torn (n : Nat) : request.kind = .write → data ≠ [] →
      request.offset + data.length ≤ chunkSize →
      Stored chunkSize old request data .failed
        ((overlay 0 old request.offset (data.take n)).take old.length)
  | padded {code : ResultCode} : request.kind = .pad → request.offset ≤ chunkSize →
      Stored chunkSize old request data code (padded chunkSize old request.offset)
  | tornPad (zeros : Bytes) : request.kind = .pad → request.offset ≤ chunkSize →
      Stored chunkSize old request data .failed
        ((overlay 0 old request.offset zeros).take old.length)

theorem apply_stored {chunkSize : Nat} {io : Io} {entry entry' : ChunkEntry} {mutation : Mutation}
    {data : Bytes} {code : ResultCode} (short : data.length < 2 ^ 63)
    (applied : apply chunkSize io entry mutation data = (code, entry')) :
    Stored chunkSize entry.data mutation.request data code entry'.data := by
  unfold apply at applied
  cases kind : mutation.request.kind with
  | write =>
      simp only [kind, write] at applied
      by_cases outside : chunkSize < u64 (mutation.request.offset + data.length)
      · simp only [outside, ↓reduceIte] at applied
        cases applied
        exact .refused (by decide)
      · by_cases empty : data = []
        · simp only [if_neg outside, if_pos empty, ↓reduceIte] at applied
          cases applied
          exact .nothing kind empty
        · by_cases far : 2 ^ 63 ≤ mutation.request.offset
          · simp only [outside, empty, far, ↓reduceIte] at applied
            cases applied
            exact .refused (by decide)
          · have fits : mutation.request.offset + data.length ≤ chunkSize := by
              rw [u64_of_lt (by omega)] at outside
              exact Nat.le_of_not_lt outside
            simp only [outside, empty, far, ↓reduceIte] at applied
            cases io with
            | ok =>
                cases applied
                exact .written kind empty fits
            | writeFails n =>
                cases applied
                exact .torn n kind empty fits
            | syncFails =>
                cases applied
                exact .written kind empty fits
  | pad =>
      simp only [kind, pad] at applied
      by_cases outside : chunkSize < mutation.request.offset
      · simp only [outside, ↓reduceIte] at applied
        cases applied
        exact .refused (by decide)
      · have fits := Nat.le_of_not_lt outside
        simp only [outside, ↓reduceIte] at applied
        cases io with
        | ok =>
            cases applied
            exact .padded kind fits
        | writeFails n =>
            cases applied
            exact .tornPad _ kind fits
        | syncFails =>
            cases applied
            exact .padded kind fits

section
variable {chunkSize : Nat} {old new data : Bytes} {request : ApplyMutationRequest}
  {code : ResultCode}

theorem Stored.length_le (stored : Stored chunkSize old request data code new) :
    new.length ≤ max old.length chunkSize := by
  cases stored with
  | refused | nothing => exact Nat.le_max_left _ _
  | written _ some fits =>
      rw [length_overlay some]
      omega
  | torn | tornPad => exact Nat.le_trans (List.length_take_le _ _) (Nat.le_max_left _ _)
  | padded _ fits =>
      rw [length_padded fits]
      exact Nat.le_max_right _ _

theorem Stored.le_length (stored : Stored chunkSize old request data code new)
    (inside : request.kind = .pad → old.length ≤ request.offset ∨ old.length ≤ chunkSize) :
    old.length ≤ new.length := by
  cases stored with
  | refused | nothing => exact Nat.le_refl _
  | written _ some fits =>
      rw [length_overlay some]
      exact Nat.le_max_left _ _
  | torn | tornPad => exact (length_overlay_take (n := 0)).1.ge
  | padded kind fits =>
      rw [length_padded fits]
      rcases inside kind with before | small
      · exact Nat.le_trans before fits
      · exact small

end

end ChunkStore

/-! ## What is done of a mutation -/

section
variable (cfg : Config) (record : BufferKey → Bytes)

def Done (request : ApplyMutationRequest) (data : Bytes) : Prop :=
  match request.kind with
  | .write => record request.key <+: data.drop request.offset
  | .pad => data.length = cfg.chunkSize

/-- The mutation ends at or below `n`. -/
def Below (request : ApplyMutationRequest) (n : Nat) : Prop :=
  match request.kind with
  | .write => record request.key = [] ∨ request.offset + (record request.key).length ≤ n
  | .pad => cfg.chunkSize ≤ n

def Inside (request : ApplyMutationRequest) : Prop :=
  match request.kind with
  | .write => record request.key = [] ∨
      request.offset + (record request.key).length ≤ cfg.chunkSize
  | .pad => request.offset ≤ cfg.chunkSize

end

section
variable {cfg : Config} {record : BufferKey → Bytes} {request other : ApplyMutationRequest}
  {old new data : Bytes} {code : ResultCode} {m n : Nat}

theorem Below.mono (below : Below cfg record request m) (le : m ≤ n) :
    Below cfg record request n := by
  unfold Below at *
  cases kind : request.kind with
  | write =>
      simp only [kind] at below ⊢
      exact below.imp_right fun ends => Nat.le_trans ends le
  | pad =>
      simp only [kind] at below ⊢
      exact Nat.le_trans below le

theorem Done.below (done : Done cfg record request data) :
    Below cfg record request data.length := by
  unfold Done at done
  unfold Below
  cases kind : request.kind with
  | write =>
      simp only [kind] at done ⊢
      by_cases empty : record request.key = []
      · exact .inl empty
      · exact .inr (ChunkStore.length_of_prefix done empty)
  | pad =>
      simp only [kind] at done ⊢
      exact done.ge

open ChunkStore

/-- The data of a store call is what was pushed for it. -/
def Loads (record : BufferKey → Bytes) (request : ApplyMutationRequest) (data : Bytes) : Prop :=
  data.length < 2 ^ 63 ∧ (request.kind = .write → data = record request.key)

theorem Done.of_stored (stored : Stored cfg.chunkSize old request data .ok new)
    (loads : Loads record request data) : Done cfg record request new ∧ Inside cfg record request := by
  unfold Done Inside
  cases stored with
  | refused wrong => exact absurd rfl wrong
  | nothing kind empty =>
      rw [← loads.2 kind, empty]
      simp only [kind]
      exact ⟨List.nil_prefix, .inl trivial⟩
  | written kind some fits =>
      rw [← loads.2 kind]
      simp only [kind]
      exact ⟨prefix_overlay_self, .inr fits⟩
  | padded kind fits =>
      simp only [kind]
      exact ⟨length_padded fits, fits⟩

theorem Done.again (done : Done cfg record request old)
    (stored : Stored cfg.chunkSize old request data code new) (loads : Loads record request data) :
    Done cfg record request new := by
  unfold Done at *
  cases stored with
  | refused | nothing => exact done
  | written kind some fits =>
      rw [← loads.2 kind]
      simp only [kind]
      exact prefix_overlay_self
  | torn n kind some fits =>
      rw [← loads.2 kind] at done ⊢
      simp only [kind] at done ⊢
      exact prefix_take done (prefix_overlay_again done)
  | padded kind fits =>
      simp only [kind]
      exact length_padded fits
  | tornPad zeros kind fits =>
      simp only [kind] at done ⊢
      rw [(length_overlay_take (n := 0)).1, done]

theorem Done.beside (done : Done cfg record other old) (inside : Inside cfg record other)
    (stored : Stored cfg.chunkSize old request data code new) (loads : Loads record request data)
    (below : Below cfg record request other.offset) : Done cfg record other new := by
  unfold Done Inside at *
  unfold Below at below
  cases kind : other.kind with
  | write =>
      simp only [kind] at done inside ⊢
      cases stored with
      | refused | nothing => exact done
      | written kind some fits =>
          simp only [kind, ← loads.2 kind, some, false_or] at below
          exact prefix_overlay_below done below
      | torn n kind some fits =>
          simp only [kind, ← loads.2 kind, some, false_or] at below
          refine prefix_take done (prefix_overlay_below done ?_)
          rw [List.length_take]
          omega
      | padded kind fits | tornPad _ kind fits =>
          simp only [kind] at below
          rcases inside with empty | inside
          · rw [empty]
            exact List.nil_prefix
          · have empty : record other.key = [] := List.eq_nil_of_length_eq_zero (by omega)
            rw [empty]
            exact List.nil_prefix
  | pad =>
      simp only [kind] at done inside ⊢
      cases stored with
      | refused | nothing => exact done
      | written kind some fits =>
          rw [length_overlay some]
          omega
      | torn | tornPad =>
          rw [(length_overlay_take (n := 0)).1, done]
      | padded kind fits => exact length_padded fits

end

/-! ## A step of a handler, with all that it reads -/

def MutationOp.key : MutationOp → BufferKey
  | .write _ _ key | .append _ key => key
  | .apply request => request.key

def MutationOp.isAppend : MutationOp → Bool
  | .append _ _ => true
  | _ => false

namespace Replica

/-- The next stage of a handler, with the buffer and the slot behind it. -/
inductive Next (cfg : Config) (now : TimePoint) (r : Replica) (op : MutationOp) :
    Stage → Stage → DataBuffer → Option Slot → Prop
  | version : Next cfg now r op .locked .versioned r.buffer r.slot
  | lease {secondaries : List ServerId} : op.isClient = true →
      LeaseTable.check now r.slot = .primary secondaries →
      Next cfg now r op .versioned (.leased secondaries) r.buffer r.slot
  | receive {data : Bytes} {rest : DataBuffer} : op.isClient = false →
      r.buffer.take op.key = some (data, rest) →
      Next cfg now r op .versioned (.taken [] data) rest r.slot
  | size {secondaries : List ServerId} : op.isClient = true →
      Next cfg now r op (.leased secondaries) (.sized secondaries) r.buffer r.slot
  | take {stage : Stage} {secondaries : List ServerId} {data : Bytes} {rest : DataBuffer} :
      op.isClient = true → stage = .leased secondaries ∨ stage = .sized secondaries →
      r.buffer.take op.key = some (data, rest) →
      Next cfg now r op stage (.taken secondaries data) rest r.slot
  | length {secondaries : List ServerId} {data : Bytes} {entry : ChunkEntry} :
      op.isAppend = true → r.entry = some entry →
      Next cfg now r op (.taken secondaries data) (.placed secondaries data entry.data.length)
        r.buffer r.slot
  | write {secondaries : List ServerId} {data : Bytes} {request : ApplyMutationRequest} :
      op.isAppend = false → op.isClient = true → request.kind = .write → request.key = op.key →
      request.serial = Order.upcoming r →
      Next cfg now r op (.taken secondaries data) (.numbered secondaries request data) r.buffer
        (some (LeaseTable.nextSerial r.slot).2)
  | append {secondaries : List ServerId} {data : Bytes} {request : ApplyMutationRequest} :
      op.isAppend = true → request.key = op.key → request.serial = Order.upcoming r →
      (request.kind = .write → u64 (request.offset + data.length) ≤ cfg.chunkSize) →
      Next cfg now r op (.placed secondaries data request.offset)
        (.numbered secondaries request data) r.buffer (some (LeaseTable.nextSerial r.slot).2)

/-- One step of the handler `f`. -/
inductive Turn (cfg : Config) (now : TimePoint) (io : Io) (r : Replica) (f : Frame) : Outcome → Prop
  | answer {code : ResultCode} : code ≠ .ok → code ≠ .retryNextChunk →
      Turn cfg now io r f { replica := { r with frame := none }, response := some { code } }
  | move {stage : Stage} {buffer : DataBuffer} {slot : Option Slot} :
      Next cfg now r f.op f.stage stage buffer slot →
      Turn cfg now io r f
        { replica := { r with buffer, slot, frame := some ⟨f.origin, f.op, stage⟩ } }
  | storeLocal {secondaries : List ServerId} {request : ApplyMutationRequest} {data : Bytes}
      {entry entry' : ChunkEntry} : f.stage = .numbered secondaries request data →
      r.entry = some entry →
      ChunkStore.apply cfg.chunkSize io entry ⟨f.origin, request⟩ data = (.ok, entry') →
      Turn cfg now io r f
        { replica := { r with
            entry := some entry'
            frame := some ⟨f.origin, f.op, .forwarding secondaries request⟩ }
          stored := some ⟨f.origin, request⟩ }
  | storeFailed {secondaries : List ServerId} {request : ApplyMutationRequest} {data : Bytes}
      {entry entry' : ChunkEntry} {code : ResultCode} :
      f.stage = .numbered secondaries request data → r.entry = some entry →
      ChunkStore.apply cfg.chunkSize io entry ⟨f.origin, request⟩ data = (code, entry') →
      Turn cfg now io r f
        { replica := { r with entry := some entry', frame := none }
          response := some { code := .failed }
          stored := some ⟨f.origin, request⟩ }
  | storeForwarded {request : ApplyMutationRequest} {data : Bytes} {entry entry' : ChunkEntry}
      {code : ResultCode} : f.op = .apply request →
      (request.kind = .pad ∧ data = [] ∨ ∃ secondaries, f.stage = .taken secondaries data) →
      r.entry = some entry →
      ChunkStore.apply cfg.chunkSize io entry ⟨f.origin, request⟩ data = (code, entry') →
      Turn cfg now io r f
        { replica := { r with entry := some entry', frame := none }
          response := some { code }
          stored := some ⟨f.origin, request⟩ }

section
variable {cfg : Config} {now : TimePoint} {io : Io} {r : Replica} {origin : Origin}
  {op : MutationOp} {stage : Stage}

theorem takeData_turn {key : BufferKey} {secondaries : List ServerId} (is : key = op.key)
    (next : ∀ {data rest}, r.buffer.take op.key = some (data, rest) →
      Next cfg now r op stage (.taken secondaries data) rest r.slot) :
    Turn cfg now io r ⟨origin, op, stage⟩ (r.takeData origin op key secondaries) := by
  subst is
  unfold takeData
  cases taken : r.buffer.take op.key with
  | none => exact .answer (by decide) (by decide)
  | some both => exact .move (next taken)

theorem storeLocal_turn {secondaries : List ServerId} {request : ApplyMutationRequest}
    {data : Bytes} : Turn cfg now io r ⟨origin, op, .numbered secondaries request data⟩
      (r.storeLocal cfg io origin op secondaries request data) := by
  unfold storeLocal store
  cases found : r.entry with
  | none => exact .answer (by decide) (by decide)
  | some entry =>
      dsimp only
      cases applied : ChunkStore.apply cfg.chunkSize io entry ⟨origin, request⟩ data with
      | mk code entry' =>
          cases code with
          | ok => exact .storeLocal rfl found applied
          | _ => exact .storeFailed rfl found applied

theorem storeForwarded_turn {request : ApplyMutationRequest} {data : Bytes}
    (ready : request.kind = .pad ∧ data = [] ∨ ∃ secondaries, stage = .taken secondaries data) :
    Turn cfg now io r ⟨origin, .apply request, stage⟩
      (r.storeForwarded cfg io origin request data) := by
  unfold storeForwarded store
  cases found : r.entry with
  | none => exact .answer (by decide) (by decide)
  | some entry => exact .storeForwarded rfl ready found rfl

theorem advance_turn {f : Frame} {out : Outcome} (frame : r.frame = some f)
    (advanced : r.advance cfg now io = some out) : Turn cfg now io r f out := by
  obtain ⟨origin, op, stage⟩ := f
  unfold advance at advanced
  simp only [frame] at advanced
  cases stage with
  | locked =>
      cases advanced
      unfold checkVersion
      cases found : r.entry with
      | none => exact .answer (by decide) (by decide)
      | some entry =>
          dsimp only
          split
          · exact .move .version
          · exact .answer (by decide) (by decide)
  | versioned =>
      have leased : op.isClient = true →
          Turn cfg now io r ⟨origin, op, .versioned⟩ (r.checkLease now origin op) := by
        intro client
        unfold checkLease
        cases checked : LeaseTable.check now r.slot with
        | notHeld => exact .answer (by decide) (by decide)
        | expired => exact .answer (by decide) (by decide)
        | primary secondaries => exact .move (.lease client checked)
      cases op with
      | write version offset key =>
          cases advanced
          exact leased rfl
      | append version key =>
          cases advanced
          exact leased rfl
      | apply request =>
          dsimp only at advanced
          cases kind : request.kind with
          | pad =>
              simp only [kind, Option.some.injEq] at advanced
              subst advanced
              exact storeForwarded_turn (.inl ⟨kind, rfl⟩)
          | write =>
              simp only [kind, Option.some.injEq] at advanced
              subst advanced
              exact takeData_turn rfl (.receive rfl)
  | leased secondaries =>
      cases op with
      | write version offset key =>
          cases advanced
          unfold checkSize
          cases r.buffer.sizeOf key with
          | none => exact .answer (by decide) (by decide)
          | some size =>
              dsimp only
              split
              · exact .answer (by decide) (by decide)
              · exact .move (.size rfl)
      | append version key =>
          cases advanced
          exact takeData_turn rfl (.take rfl (.inl rfl))
      | apply request => cases advanced
  | sized secondaries =>
      cases op with
      | write version offset key =>
          cases advanced
          exact takeData_turn rfl (.take rfl (.inr rfl))
      | _ => cases advanced
  | taken secondaries data =>
      cases op with
      | write version offset key =>
          cases advanced
          exact .move (.write rfl rfl rfl rfl rfl)
      | append version key =>
          cases advanced
          unfold readLength
          cases found : r.entry with
          | none => exact .answer (by decide) (by decide)
          | some entry => exact .move (.length rfl found)
      | apply request =>
          dsimp only at advanced
          split at advanced
          · cases advanced
            exact .answer (by decide) (by decide)
          · cases advanced
            exact storeForwarded_turn (.inr ⟨_, rfl⟩)
  | placed secondaries data current =>
      cases op with
      | append version key =>
          cases advanced
          refine .move (@Next.append _ _ _ _ _ _ ⟨version, _, _, current, key⟩ rfl rfl rfl ?_)
          intro kind
          dsimp only at kind ⊢
          by_contra outside
          rw [if_pos (Nat.lt_of_not_le outside)] at kind
          cases kind
      | _ => cases advanced
  | numbered secondaries request data =>
      cases advanced
      exact storeLocal_turn
  | forwarding secondaries request => cases advanced

end

end Replica

end Gfs.Chunkserver
