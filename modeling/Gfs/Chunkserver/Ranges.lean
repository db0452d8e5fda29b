import Gfs.Chunkserver.Reads

/-!
# Ranges whose end does not fit into 64 bits

The checks of `Read`, `Write` and `ApplyMutation` add offset and length modulo 2^64. They do what they
should exactly where the sum is not rounded, or where what is left of it is out of range all the same.
-/

namespace Gfs.Chunkserver

namespace Disk.Store
open Lib.Overlay

/-- A file with all its checksums. -/
structure Intact (shape : Shape) (crc : Bytes → UInt32) (chunk : Bytes) (entry : Entry) : Prop where
  length : chunk.length = entry.length
  /-- The length of a file is an `off_t`. -/
  bounded : entry.length < 2 ^ 63
  checksums : ∀ b : Nat, entry.checksums[b]? =
    if b * shape.blockSize < entry.length then some (crc (page shape.blockSize chunk b)) else none

/-- The sizes of the buffer and of the substring in `Read`, where it gets as far. -/
def readSizes (shape : Shape) (entry : Entry) (offset length : Nat) : Option (Int × Int) :=
  if entry.length < offset then none
  else
    let stop := min (u64 (offset + length)) entry.length
    if stop = offset then none
    else
      let first := offset / shape.blockSize
      let last := sub64 stop 1 / shape.blockSize
      if entry.checksums.length ≤ last then none
      else
        let start := first * shape.blockSize
        let limit := min (u64 ((last + 1) * shape.blockSize)) entry.length
        some ((limit : Int) - start, (stop : Int) - offset)

/-- The answer of `Read` for the range as it is given, and no trace of the call. -/
def ReadsExactly (shape : Shape) (crc : Bytes → UInt32) (s : Store) (handle : Handle)
    (chunk : Bytes) (entry : Entry) (offset length : Nat) : Prop :=
  s.read shape crc none handle offset length =
      (some (if entry.length < offset then (.outOfRange, [])
        else (.ok, (chunk.drop offset).take (min (offset + length) entry.length - offset))), s) ∧
    ∀ buffer substring, readSizes shape entry offset length = some (buffer, substring) →
      0 ≤ buffer ∧ 0 ≤ substring

def WritesInside (shape : Shape) (crc : Bytes → UInt32) (fault : Fault) (s : Store)
    (handle : Handle) (offset : Nat) (data : Bytes) : Prop :=
  shape.chunkSize < offset + data.length →
    s.write shape crc fault handle offset data = (.outOfRange, s)

section
variable {shape : Shape} {crc : Bytes → UInt32} {fault : Fault} {s : Store} {handle : Handle}
  {chunk sums : Bytes} {entry : Entry} {offset length : Nat} {data : Bytes}

theorem u64_of_wrapped {n : Nat} (low : 2 ^ 64 ≤ n) (high : n < 2 ^ 65) : u64 n = n - 2 ^ 64 := by
  rw [u64]
  omega

theorem Intact.clean (intact : Intact shape crc chunk entry) {b : Nat}
    (below : b * shape.blockSize < entry.length) : Clean shape crc chunk entry b := by
  rw [Clean, intact.checksums b, if_pos below, ← intact.length, List.take_length]

theorem readSizes_nonneg (bounded : entry.length < 2 ^ 63) (short : offset + length < 2 ^ 64)
    {buffer substring : Int} (sizes : readSizes shape entry offset length = some (buffer, substring)) :
    0 ≤ buffer ∧ 0 ≤ substring := by
  unfold readSizes at sizes
  split at sizes
  · cases sizes
  rename_i within
  dsimp only at sizes
  rw [u64_of_lt short] at sizes
  split at sizes
  · cases sizes
  rename_i some
  obtain ⟨stop, isStop⟩ : ∃ stop, stop = min (offset + length) entry.length := ⟨_, rfl⟩
  rw [← isStop] at sizes some
  have inside : offset < stop := by omega
  rw [sub64_of_le (by omega) (by omega)] at sizes
  split at sizes
  · cases sizes
  obtain ⟨last, isLast⟩ : ∃ last, last = (stop - 1) / shape.blockSize := ⟨_, rfl⟩
  rw [← isLast] at sizes
  have below : last * shape.blockSize < stop := by
    have least := Nat.div_mul_le_self (stop - 1) shape.blockSize
    rw [← isLast] at least
    omega
  have above : stop ≤ (last + 1) * shape.blockSize := by
    have most := Nat.lt_mul_div_succ (stop - 1) shape.positive
    rw [← isLast, Nat.mul_comm] at most
    omega
  have least : offset / shape.blockSize * shape.blockSize ≤ offset := Nat.div_mul_le_self _ _
  rw [u64_of_lt (rounds_of_file bounded.le (by omega))] at sizes
  cases sizes
  omega

theorem readsExactly_iff (there : s.At handle chunk sums entry)
    (intact : Intact shape crc chunk entry) (ranged : length < 2 ^ 64) :
    ReadsExactly shape crc s handle chunk entry offset length ↔
      entry.length < offset ∨ offset + length < 2 ^ 64 := by
  have bounded := intact.bounded
  constructor
  · rintro ⟨answer, sizes⟩
    by_contra! wrapped
    obtain ⟨within, low⟩ := wrapped
    have stop : min (u64 (offset + length)) entry.length = offset + length - 2 ^ 64 := by
      rw [u64_of_wrapped low (by omega)]
      omega
    have early : offset + length - 2 ^ 64 ≠ offset := by omega
    have sizes := sizes
    unfold readSizes at sizes
    rw [read, there.entry] at answer
    dsimp only at answer sizes
    rw [if_neg (Nat.not_lt.mpr within), stop, if_neg early] at answer sizes
    by_cases missing : entry.checksums.length ≤ sub64 (offset + length - 2 ^ 64) 1 / shape.blockSize
    · -- the end wraps to the start of the chunk
      rw [if_pos missing, if_neg (Nat.not_lt.mpr within)] at answer
      cases (Prod.mk.inj answer).1
    · rw [if_neg missing] at sizes
      have negative := (sizes _ _ rfl).2
      omega
  · intro exact
    by_cases beyond : entry.length < offset
    · rw [ReadsExactly, if_pos beyond, read_outside there beyond]
      refine ⟨rfl, fun buffer substring sizes => ?_⟩
      rw [readSizes, if_pos beyond] at sizes
      cases sizes
    · have short := exact.resolve_left beyond
      have inside := Nat.not_lt.mp beyond
      rw [ReadsExactly, if_neg beyond, read_clean there intact.length.ge
        (fun b => rounds_of_file bounded.le) (by omega) short inside fun b => intact.clean]
      exact ⟨rfl, fun buffer substring => readSizes_nonneg bounded short⟩

theorem writesInside_iff (there : s.At handle chunk sums entry) (ranged : offset < 2 ^ 64)
    (ranged' : data.length < 2 ^ 64) :
    WritesInside shape crc fault s handle offset data ↔
      offset + data.length < 2 ^ 64 ∨ shape.chunkSize + 2 ^ 64 < offset + data.length := by
  have small := shape.chunkSize_lt
  constructor
  · intro refuses
    by_contra! wrapped
    obtain ⟨low, inside⟩ := wrapped
    have nonempty : data ≠ [] := by
      rintro rfl
      rw [List.length_nil] at low
      omega
    have result := refuses (by omega)
    rw [write, there.entry] at result
    dsimp only at result
    rw [u64_of_wrapped low (by omega), if_neg (by omega), if_neg nonempty, if_pos (by omega)] at result
    cases (Prod.mk.inj result).1
  · intro exact beyond
    rw [write, there.entry]
    dsimp only
    rw [if_pos]
    rcases exact with short | far
    · rwa [u64_of_lt short]
    · rw [u64_of_wrapped (by omega) (by omega)]
      omega

end

end Disk.Store

/-! ## The handlers -/

namespace Replica

/-- The sections of a handler one after another, up to its answer or to the forwarding. -/
def serve (cfg : Config) (now : TimePoint) (io : Io) : Nat → Replica → Option Outcome
  | 0, _ => none
  | fuel + 1, r => (r.advance cfg now io).bind fun out =>
      if out.response.isSome || out.stored.isSome then some out
      else serve cfg now io fuel out.replica

/-- `Write` and `ApplyMutation` have six sections at most. -/
def handle (cfg : Config) (now : TimePoint) (io : Io) (r : Replica) : Option Outcome :=
  serve cfg now io 6 r

/-- A `Write` that holds the mutation lock, with the version, the lease and the data in place. -/
structure Writing (now : TimePoint) (r : Replica) (version offset : Nat) (key : BufferKey)
    (size : Nat) : Prop where
  locked : ∃ origin, r.frame = some ⟨origin, .write version offset key, .locked⟩
  current : ∃ entry, r.entry = some entry ∧ entry.version = version
  leased : ∃ secondaries, LeaseTable.check now r.slot = .primary secondaries
  buffered : r.buffer.sizeOf key = some size

/-- An `ApplyMutation` that holds the mutation lock, with the version and the data in place. -/
structure Applying (r : Replica) (request : ApplyMutationRequest) (size : Nat) : Prop where
  locked : ∃ origin, r.frame = some ⟨origin, .apply request, .locked⟩
  current : ∃ entry, r.entry = some entry ∧ entry.version = request.version
  buffered : r.buffer.sizeOf request.key = some size

/-- The answer is `OUT_OF_RANGE` and the chunk is as before. -/
def Refuses (cfg : Config) (now : TimePoint) (io : Io) (r : Replica) : Prop :=
  ∃ out, r.handle cfg now io = some out ∧ out.response = some { code := .outOfRange } ∧
    out.replica.entry = r.entry

/-- `Write` leaves the pushed data where it is, too. -/
def RefusesUntaken (cfg : Config) (now : TimePoint) (io : Io) (r : Replica) : Prop :=
  ∃ out, r.handle cfg now io = some out ∧ out.response = some { code := .outOfRange } ∧
    out.replica.entry = r.entry ∧ out.replica.buffer = r.buffer

section
variable {cfg : Config} {now : TimePoint} {io : Io} {r : Replica} {origin : Origin}

theorem serve_of_moved {fuel : Nat} {out : Outcome} (step : r.advance cfg now io = some out)
    (silent : out.response = none) (unstored : out.stored = none) :
    serve cfg now io (fuel + 1) r = serve cfg now io fuel out.replica := by
  rw [serve, step, Option.bind_some, silent, unstored]
  rfl

theorem serve_of_answered {fuel : Nat} {out : Outcome} (step : r.advance cfg now io = some out)
    (answered : out.response.isSome = true) : serve cfg now io (fuel + 1) r = some out := by
  rw [serve, step, Option.bind_some, answered]
  rfl

theorem take_of_sizeOf {buffer : DataBuffer} {key : BufferKey} {size : Nat}
    (found : buffer.sizeOf key = some size) :
    ∃ data rest, buffer.take key = some (data, rest) ∧ data.length = size := by
  obtain ⟨entry, there, rfl⟩ := Option.map_eq_some_iff.mp found
  exact ⟨entry.data, buffer.unlink entry, by rw [DataBuffer.take, there]; rfl, rfl⟩

theorem storeLocal_refuses {op : MutationOp} {secondaries : List ServerId}
    {request : ApplyMutationRequest} {data : Bytes} :
    (r.storeLocal cfg io origin op secondaries request data).response ≠
      some { code := .outOfRange } := by
  unfold storeLocal
  split
  · simp [goto]
  · simp [finish]

theorem handle_write (cfg : Config) (io : Io) {version offset size : Nat} {key : BufferKey}
    (writing : Writing now r version offset key size) :
    ∃ origin secondaries, r.handle cfg now io =
      if cfg.chunkSize < u64 (offset + size) then some (r.finish .outOfRange)
      else serve cfg now io 3
        (r.goto origin (.write version offset key) (.sized secondaries)).replica := by
  obtain ⟨origin, frame⟩ := writing.locked
  obtain ⟨entry, found, same⟩ := writing.current
  obtain ⟨secondaries, lease⟩ := writing.leased
  refine ⟨origin, secondaries, ?_⟩
  have first : r.advance cfg now io = some (r.goto origin (.write version offset key) .versioned) := by
    simp [advance, frame, checkVersion, found, same, MutationOp.version]
  have second : (r.goto origin (.write version offset key) .versioned).replica.advance cfg now io =
      some (r.goto origin (.write version offset key) (.leased secondaries)) := by
    simp [advance, goto, checkLease, lease]
  rw [handle, serve_of_moved first rfl rfl, serve_of_moved second rfl rfl]
  by_cases beyond : cfg.chunkSize < u64 (offset + size)
  · have third : (r.goto origin (.write version offset key) (.leased secondaries)).replica.advance
        cfg now io = some (r.finish .outOfRange) := by
      simp [advance, goto, finish, checkSize, writing.buffered, beyond]
    rw [if_pos beyond, serve_of_answered third rfl]
  · have third : (r.goto origin (.write version offset key) (.leased secondaries)).replica.advance
        cfg now io = some (r.goto origin (.write version offset key) (.sized secondaries)) := by
      simp [advance, goto, checkSize, writing.buffered, beyond]
    rw [if_neg beyond, serve_of_moved third rfl rfl]

/-- Behind the range check no answer is `OUT_OF_RANGE`. -/
theorem serve_sized {version offset size : Nat} {key : BufferKey} {secondaries : List ServerId}
    (buffered : r.buffer.sizeOf key = some size) {out : Outcome}
    (served : serve cfg now io 3
      (r.goto origin (.write version offset key) (.sized secondaries)).replica = some out) :
    out.response ≠ some { code := .outOfRange } := by
  obtain ⟨data, rest, taken, -⟩ := take_of_sizeOf buffered
  have fourth : (r.goto origin (.write version offset key) (.sized secondaries)).replica.advance
      cfg now io = some ({ r with buffer := rest }.goto origin (.write version offset key)
        (.taken secondaries data)) := by
    simp [advance, goto, takeData, taken]
  rw [serve_of_moved fourth rfl rfl] at served
  obtain ⟨q, number⟩ : ∃ q, q = ({ r with buffer := rest } : Replica).goto origin
      (.write version offset key) (.taken secondaries data) := ⟨_, rfl⟩
  have fifth : q.replica.advance cfg now io = some (q.replica.number origin
      (.write version offset key) secondaries data version .write offset key) := by
    simp [number, advance, goto]
  rw [← number, serve_of_moved fifth rfl rfl] at served
  rw [serve] at served
  obtain ⟨out', stored, last⟩ := Option.bind_eq_some_iff.mp served
  have sixth : out' = (q.replica.number origin (.write version offset key) secondaries data version
      .write offset key).replica.storeLocal cfg io origin (.write version offset key) secondaries
        { version, serial := (LeaseTable.nextSerial q.replica.slot).1, kind := .write, offset, key }
        data := by
    simp only [advance, Replica.number, goto, Option.some.injEq] at stored
    exact stored.symm
  split at last
  · cases last
    rw [sixth]
    exact storeLocal_refuses
  · cases last

theorem refusesUntaken_iff {version offset size : Nat} {key : BufferKey}
    (bounded : cfg.chunkSize < 2 ^ 64) (writing : Writing now r version offset key size)
    (ranged : offset < 2 ^ 64) (ranged' : size < 2 ^ 64) :
    (cfg.chunkSize < offset + size → RefusesUntaken cfg now io r) ↔
      offset + size < 2 ^ 64 ∨ cfg.chunkSize + 2 ^ 64 < offset + size := by
  obtain ⟨origin, secondaries, handled⟩ := handle_write cfg io writing
  constructor
  · intro refuses
    by_contra! wrapped
    obtain ⟨low, inside⟩ := wrapped
    obtain ⟨out, served, answer, -⟩ := refuses (by omega)
    have short : ¬ cfg.chunkSize < u64 (offset + size) := by
      rw [Disk.Store.u64_of_wrapped low (by omega)]
      omega
    rw [handled, if_neg short] at served
    exact serve_sized writing.buffered served answer
  · intro exact beyond
    rw [if_pos] at handled
    · exact ⟨_, handled, rfl, rfl, rfl⟩
    · rcases exact with short | far
      · rwa [u64_of_lt short]
      · rw [Disk.Store.u64_of_wrapped (by omega) (by omega)]
        omega

theorem apply_ne_outOfRange {entry : ChunkEntry} {mutation : Mutation} {data : Bytes}
    (kind : mutation.request.kind = .write)
    (inside : ¬ cfg.chunkSize < u64 (mutation.request.offset + data.length)) :
    (ChunkStore.apply cfg.chunkSize io entry mutation data).1 ≠ .outOfRange := by
  have written : (ChunkStore.write cfg.chunkSize io entry mutation.request.offset data).1 ≠
      .outOfRange := by
    unfold ChunkStore.write
    rw [if_neg inside]
    split_ifs
    · simp
    · simp
    · cases io <;> simp
  unfold ChunkStore.apply
  rw [kind]
  dsimp only
  split
  · simp
  · exact written

theorem refuses_iff {request : ApplyMutationRequest} {size : Nat} (bounded : cfg.chunkSize < 2 ^ 64)
    (applying : Applying r request size) (kind : request.kind = .write)
    (ranged : request.offset < 2 ^ 64) (ranged' : size < 2 ^ 64) :
    (cfg.chunkSize < request.offset + size → Refuses cfg now io r) ↔
      request.offset + size < 2 ^ 64 ∨ cfg.chunkSize + 2 ^ 64 < request.offset + size := by
  obtain ⟨origin, frame⟩ := applying.locked
  obtain ⟨entry, found, same⟩ := applying.current
  obtain ⟨data, rest, taken, width⟩ := take_of_sizeOf applying.buffered
  have first : r.advance cfg now io = some (r.goto origin (.apply request) .versioned) := by
    simp [advance, frame, checkVersion, found, same, MutationOp.version]
  have second : (r.goto origin (.apply request) .versioned).replica.advance cfg now io =
      some ({ r with buffer := rest }.goto origin (.apply request) (.taken [] data)) := by
    simp [advance, goto, takeData, taken, kind]
  obtain ⟨q, isTaken⟩ : ∃ q, q = ({ r with buffer := rest } : Replica).goto origin
      (.apply request) (.taken [] data) := ⟨_, rfl⟩
  have third : q.replica.advance cfg now io =
      if cfg.chunkSize < u64 (request.offset + size) then some (q.replica.finish .outOfRange)
      else some (q.replica.storeForwarded cfg io origin request data) := by
    rw [isTaken]
    simp only [advance, goto, width]
  have handled : r.handle cfg now io = serve cfg now io 4 q.replica := by
    rw [handle, serve_of_moved first rfl rfl, serve_of_moved second rfl rfl, isTaken]
  constructor
  · intro refuses
    by_contra! wrapped
    obtain ⟨low, inside⟩ := wrapped
    obtain ⟨out, served, answer, -⟩ := refuses (by omega)
    have short : ¬ cfg.chunkSize < u64 (request.offset + size) := by
      rw [Disk.Store.u64_of_wrapped low (by omega)]
      omega
    rw [if_neg short] at third
    have stored : q.replica.storeForwarded cfg io origin request data =
        { q.replica.storeForwarded cfg io origin request data with
          response := some
            { code := (ChunkStore.apply cfg.chunkSize io entry ⟨origin, request⟩ data).1 } } := by
      rw [isTaken]
      simp [storeForwarded, store, goto, finish, found]
    rw [handled, serve_of_answered third (by rw [stored]; rfl)] at served
    cases served
    rw [stored] at answer
    simp only [Option.some.injEq, Response.mk.injEq, and_true] at answer
    exact apply_ne_outOfRange kind (width ▸ short) answer
  · intro exact beyond
    have far : cfg.chunkSize < u64 (request.offset + size) := by
      rcases exact with short | far
      · rwa [u64_of_lt short]
      · rw [Disk.Store.u64_of_wrapped (by omega) (by omega)]
        omega
    rw [if_pos far] at third
    refine ⟨_, handled.trans (serve_of_answered third rfl), rfl, ?_⟩
    rw [isTaken]
    rfl

/-- `Pad` has no length that could be added. -/
theorem refuses_pad {request : ApplyMutationRequest}
    (locked : r.frame = some ⟨origin, .apply request, .locked⟩)
    (current : ∃ entry, r.entry = some entry ∧ entry.version = request.version)
    (kind : request.kind = .pad) (beyond : cfg.chunkSize < request.offset) :
    Refuses cfg now io r := by
  obtain ⟨entry, found, same⟩ := current
  have first : r.advance cfg now io = some (r.goto origin (.apply request) .versioned) := by
    simp [advance, locked, checkVersion, found, same, MutationOp.version]
  have second : (r.goto origin (.apply request) .versioned).replica.advance cfg now io =
      some ((r.goto origin (.apply request) .versioned).replica.storeForwarded cfg io origin
        request []) := by
    simp [advance, goto, kind]
  have refused : ChunkStore.apply cfg.chunkSize io entry ⟨origin, request⟩ [] =
      (.outOfRange, entry) := by
    simp [ChunkStore.apply, kind, ChunkStore.pad, beyond]
  have answer : (r.goto origin (.apply request) .versioned).replica.storeForwarded cfg io origin
      request [] = { r.finish .outOfRange with stored := some ⟨origin, request⟩ } := by
    simp [storeForwarded, store, goto, finish, found, refused]
  rw [answer] at second
  refine ⟨_, (serve_of_moved first rfl rfl).trans (serve_of_answered second rfl), rfl, rfl⟩

end

end Replica

/-! ## All four checks -/

open Disk Store Replica in
/-- The range checks do what they should exactly where the sum does not wrap around or, for a write,
where it is too large even then. -/
theorem rangeChecks_iff (shape : Shape) (crc : Bytes → UInt32) (cfg : Config) (now : TimePoint)
    (io : Io) :
    (∀ (s : Store) (handle : Handle) (chunk sums : Bytes) (entry : Entry) (offset length : Nat),
        s.At handle chunk sums entry → Intact shape crc chunk entry →
        offset < 2 ^ 64 → length < 2 ^ 64 →
      (ReadsExactly shape crc s handle chunk entry offset length ↔
        entry.length < offset ∨ offset + length < 2 ^ 64)) ∧
    (∀ (fault : Fault) (s : Store) (handle : Handle) (chunk sums : Bytes) (entry : Entry)
        (offset : Nat) (data : Bytes),
        s.At handle chunk sums entry → offset < 2 ^ 64 → data.length < 2 ^ 64 →
      (WritesInside shape crc fault s handle offset data ↔
        offset + data.length < 2 ^ 64 ∨ shape.chunkSize + 2 ^ 64 < offset + data.length)) ∧
    (∀ (r : Replica) (version offset size : Nat) (key : BufferKey),
        cfg.chunkSize < 2 ^ 64 → Writing now r version offset key size →
        offset < 2 ^ 64 → size < 2 ^ 64 →
      ((cfg.chunkSize < offset + size → RefusesUntaken cfg now io r) ↔
        offset + size < 2 ^ 64 ∨ cfg.chunkSize + 2 ^ 64 < offset + size)) ∧
    (∀ (r : Replica) (request : ApplyMutationRequest) (size : Nat),
        cfg.chunkSize < 2 ^ 64 → Applying r request size → request.kind = .write →
        request.offset < 2 ^ 64 → size < 2 ^ 64 →
      ((cfg.chunkSize < request.offset + size → Refuses cfg now io r) ↔
        request.offset + size < 2 ^ 64 ∨ cfg.chunkSize + 2 ^ 64 < request.offset + size)) ∧
    (∀ (r : Replica) (request : ApplyMutationRequest) (origin : Origin),
        r.frame = some ⟨origin, .apply request, .locked⟩ →
        (∃ entry, r.entry = some entry ∧ entry.version = request.version) → request.kind = .pad →
        cfg.chunkSize < request.offset →
      Refuses cfg now io r) := by
  refine ⟨?_, ?_, ?_, ?_, ?_⟩
  · intro s handle chunk sums entry offset length there intact _ ranged
    exact readsExactly_iff there intact ranged
  · intro fault s handle chunk sums entry offset data there ranged ranged'
    exact writesInside_iff there ranged ranged'
  · intro r version offset size key bounded writing ranged ranged'
    exact refusesUntaken_iff bounded writing ranged ranged'
  · intro r request size bounded applying kind ranged ranged'
    exact refuses_iff bounded applying kind ranged ranged'
  · intro r request origin locked current kind beyond
    exact refuses_pad locked current kind beyond

namespace Disk.Store

def threeBytes : Store where
  chunks := (∅ : Std.ExtTreeMap Handle Bytes).insert 1 [7, 8, 9]
  metas := (∅ : Std.ExtTreeMap Handle Bytes).insert 1
    (encodeU64 1 ++ encodeU32 (crc32 [7, 8]) ++ encodeU32 (crc32 [9]))
  entries := (∅ : Std.ExtTreeMap Handle Entry).insert 1
    { version := 1, length := 3, checksums := [crc32 [7, 8], crc32 [9]] }

def smallShape : Shape := ⟨4, 2, by decide, by decide, by decide⟩

theorem threeBytes_at : threeBytes.At 1 [7, 8, 9]
    (encodeU64 1 ++ encodeU32 (crc32 [7, 8]) ++ encodeU32 (crc32 [9]))
    { version := 1, length := 3, checksums := [crc32 [7, 8], crc32 [9]] } :=
  ⟨by simp [threeBytes], by simp [threeBytes], by simp [threeBytes]⟩

theorem threeBytes_intact : Intact smallShape crc32 [7, 8, 9]
    { version := 1, length := 3, checksums := [crc32 [7, 8], crc32 [9]] } where
  length := rfl
  bounded := by decide
  checksums
    | 0 => rfl
    | 1 => rfl
    | b + 2 => by
        rw [if_neg (by simp only [smallShape]; omega)]
        rfl

end Disk.Store

namespace Replica

/-- A primary that has just admitted the mutation, with one byte pushed for it. -/
def pushed (op : MutationOp) : Replica where
  entry := some { version := 1 }
  slot := some { held := true, expiry := 1 }
  buffer := ({ capacity := 8 } : DataBuffer).put ⟨[], 1⟩ [5]
  frame := some ⟨⟨[], 1⟩, op, .locked⟩

end Replica

open Disk Store Replica in
/-- A range that ends at 2^64: the healthy chunk is marked corrupt, and the writes go on to a `pwrite`
that fails. -/
theorem rangeChecks_wrap :
    (threeBytes.At 1 [7, 8, 9] (encodeU64 1 ++ encodeU32 (crc32 [7, 8]) ++ encodeU32 (crc32 [9]))
        { version := 1, length := 3, checksums := [crc32 [7, 8], crc32 [9]] } ∧
      Intact smallShape crc32 [7, 8, 9]
        { version := 1, length := 3, checksums := [crc32 [7, 8], crc32 [9]] } ∧
      (threeBytes.read smallShape crc32 none 1 1 (2 ^ 64 - 1)).1 =
        some (.checksumMismatch, []) ∧
      (threeBytes.read smallShape crc32 none 1 1 (2 ^ 64 - 1)).2.corrupt = [1]) ∧
    (threeBytes.write smallShape crc32 none 1 (2 ^ 64 - 1) [5]).1 = .failed ∧
    (Writing 0 (pushed (.write 1 (2 ^ 64 - 1) ⟨[], 1⟩)) 1 (2 ^ 64 - 1) ⟨[], 1⟩ 1 ∧
      ((pushed (.write 1 (2 ^ 64 - 1) ⟨[], 1⟩)).handle { chunkSize := 4 } 0 .ok).map
          (fun out => (out.response, out.replica.buffer.sizeOf ⟨[], 1⟩)) =
        some (some { code := .failed }, none)) ∧
    Applying (pushed (.apply ⟨1, 1, .write, 2 ^ 64 - 1, ⟨[], 1⟩⟩)) ⟨1, 1, .write, 2 ^ 64 - 1, ⟨[], 1⟩⟩ 1 ∧
    ((pushed (.apply ⟨1, 1, .write, 2 ^ 64 - 1, ⟨[], 1⟩⟩)).handle { chunkSize := 4 } 0 .ok).map
        (·.response) =
      some (some { code := .failed }) := by
  refine ⟨⟨threeBytes_at, threeBytes_intact, by decide +kernel, by decide +kernel⟩, by decide +kernel,
    ⟨⟨⟨_, rfl⟩, ⟨_, rfl, rfl⟩, ⟨[], by decide⟩, by decide⟩, by decide +kernel⟩,
    ⟨⟨_, rfl⟩, ⟨_, rfl, rfl⟩, by decide⟩, by decide +kernel⟩

open Disk Store Replica in
/-- The last byte and what is behind it. -/
theorem rangeChecks_iff_threeBytes :
    (ReadsExactly smallShape crc32 threeBytes 1 [7, 8, 9]
        { version := 1, length := 3, checksums := [crc32 [7, 8], crc32 [9]] } 2 7 ↔
      3 < 2 ∨ 2 + 7 < 2 ^ 64) ∧
    (WritesInside smallShape crc32 none threeBytes 1 3 [5, 6] ↔
      3 + 2 < 2 ^ 64 ∨ 4 + 2 ^ 64 < 3 + 2) :=
  ⟨(rangeChecks_iff smallShape crc32 {} 0 .ok).1 _ _ _ _ _ _ _ threeBytes_at threeBytes_intact
      (by decide) (by decide),
    (rangeChecks_iff smallShape crc32 {} 0 .ok).2.1 _ _ _ _ _ _ _ _ threeBytes_at (by decide)
      (by decide)⟩

end Gfs.Chunkserver
