import Gfs.Chunkserver.Replica
import Gfs.Lib.Overlay
import Std.Data.ExtTreeMap

/-!
# The chunk store on its files: `chunkserver/chunk_store.cc`

A directory has for each handle a chunk file and a meta file: the version in eight bytes and a
checksum in four for each block, little endian. The store keeps the version, the length and the
checksums of the chunks that it has open in memory as well. `crc` is `Crc32`. A call may be given a
system call that fails; the calls are numbered in the order of the source, and a write that fails
has written some bytes before.
-/

namespace Gfs.Chunkserver.Disk
open Lib.Overlay

/-- The parameters of `ChunkStore`; the code divides by the block size. -/
structure Shape where
  chunkSize : Nat
  blockSize : Nat
  chunkSize_lt : chunkSize < 2 ^ 64
  blockSize_lt : blockSize < 2 ^ 64
  positive : 0 < blockSize

/-! ## `zlib` -/

/-- One bit of the CRC-32 that `zlib` computes. -/
def crcBit (crc : UInt32) : UInt32 :=
  if crc &&& 1 = 1 then (crc >>> 1) ^^^ 0xedb88320 else crc >>> 1

def crcByte (crc : UInt32) (byte : UInt8) : UInt32 :=
  crcBit (crcBit (crcBit (crcBit (crcBit (crcBit (crcBit (crcBit (crc ^^^ byte.toUInt32))))))))

/-- `Crc32` hands `zlib` the length as an `uInt`. -/
def crc32 (bytes : Bytes) : UInt32 :=
  (bytes.take (bytes.length % 2 ^ 32)).foldl crcByte 0xffffffff ^^^ 0xffffffff

example : crc32 [0x31, 0x32, 0x33, 0x34, 0x35, 0x36, 0x37, 0x38, 0x39] = 0xcbf43926 := by
  decide +kernel

/-! ## Numbers in the meta file -/

def encodeU32 (v : UInt32) : Bytes :=
  (List.range 4).map fun i => (v >>> UInt32.ofNat (8 * i)).toUInt8

def decodeU32 (p : Bytes) : UInt32 :=
  (List.range 4).foldl (fun v i => v ||| ((p.getD i 0).toUInt32 <<< UInt32.ofNat (8 * i))) 0

def encodeU64 (v : UInt64) : Bytes :=
  (List.range 8).map fun i => (v >>> UInt64.ofNat (8 * i)).toUInt8

def decodeU64 (p : Bytes) : UInt64 :=
  (List.range 8).foldl (fun v i => v ||| ((p.getD i 0).toUInt64 <<< UInt64.ofNat (8 * i))) 0

def metaHeaderSize : Nat := 8

/-- Subtraction on `uint64_t`. -/
def sub64 (a b : Nat) : Nat := u64 (a + 2 ^ 64 - b)

/-! ## The store -/

structure Entry where
  version : UInt64
  length : Nat := 0
  checksums : List UInt32 := []
deriving DecidableEq

/-- `otherChunks` and `otherMetas` are the handles of names that `HexToHandle` reads but that are
not the ones of `ChunkPath` and `MetaPath`. -/
structure Directory where
  chunks : Std.ExtTreeMap Handle Bytes := ∅
  metas : Std.ExtTreeMap Handle Bytes := ∅
  otherChunks : List Handle := []
  otherMetas : List Handle := []

structure Store extends Directory where
  entries : Std.ExtTreeMap Handle Entry := ∅
  corrupt : List Handle := []

/-- The system call of the operation that fails, and how many bytes it moves before. -/
abbrev Fault := Option (Nat × Nat)

def Fault.stops (fault : Fault) (call : Nat) : Option Nat :=
  (fault.filter (·.1 = call)).map (·.2)

def preadAll (fault : Fault) (call : Nat) (file : Bytes) (length offset : Nat) : Option Bytes :=
  if length = 0 then some []
  else if (fault.stops call).isSome then none
  else if offset + length ≤ file.length then some ((file.drop offset).take length)
  else none

def pwriteAll (fault : Fault) (call : Nat) (file : Bytes) (offset : Nat) (data : Bytes) :
    Bool × Bytes :=
  if data = [] then (true, file)
  else match fault.stops call with
    | some bytes =>
        (false, if data.take bytes = [] then file else overlay 0 file offset (data.take bytes))
    | none => (true, overlay 0 file offset data)

namespace Store
variable (shape : Shape) (crc : Bytes → UInt32) (fault : Fault) (s : Store)

def chunkFile (handle : Handle) : Bytes := (s.chunks[handle]?).getD []

def metaFile (handle : Handle) : Bytes := (s.metas[handle]?).getD []

def setChunk (handle : Handle) (file : Bytes) : Store :=
  { s with chunks := s.chunks.insert handle file }

def setMeta (handle : Handle) (file : Bytes) : Store :=
  { s with metas := s.metas.insert handle file }

def setEntry (handle : Handle) (entry : Entry) : Store :=
  { s with entries := s.entries.insert handle entry }

def markCorrupt (handle : Handle) : Store :=
  if handle ∈ s.corrupt then s else { s with corrupt := handle :: s.corrupt }

/-- The number of blocks, with the arithmetic of `uint64_t`. -/
def needed (length : Nat) : Nat := u64 (length + shape.blockSize - 1) / shape.blockSize

/-! ## `OpenEntry` and `Scan` -/

/-- `OpenEntry` of a new chunk: calls 0 to 3. -/
def openNew (handle : Handle) (version : UInt64) : Option Entry × Store :=
  if s.chunks.contains handle || (fault.stops 0).isSome then (none, s)
  else if s.metas.contains handle || (fault.stops 1).isSome then (none, s)
  else
    let (ok, file) := pwriteAll fault 2 [] 0 (encodeU64 version)
    let s := (s.setChunk handle []).setMeta handle file
    if ok && (fault.stops 3).isNone then (some { version }, s) else (none, s)

/-- `OpenEntry` of a chunk that was found. -/
def openEntry (directory : Directory) (handle : Handle) : Option Entry :=
  match directory.chunks[handle]?, directory.metas[handle]? with
  | some chunk, some file =>
      if file.length < metaHeaderSize then none
      else
        let stored := (file.length - metaHeaderSize) / 4
        let loaded := min stored (needed shape chunk.length)
        some {
          version := decodeU64 file
          length := chunk.length
          checksums := (List.range loaded).map fun i =>
            decodeU32 (file.drop (metaHeaderSize + 4 * i)) }
  | _, _ => none

def scan (directory : Directory) : Store :=
  let chunks := directory.chunks.keys ++ directory.otherChunks
  let metas := directory.metas.keys ++ directory.otherMetas
  let orphans := metas.filter fun handle => !chunks.contains handle
  let directory := { directory with
    metas := orphans.foldl (fun metas handle => metas.erase handle) directory.metas }
  let entries := (chunks.filter fun handle => metas.contains handle).foldl (fun entries handle =>
    match openEntry shape directory handle with
    | some entry => entries.insert handle entry
    | none => entries) ∅
  { directory with entries }

/-! ## The operations -/

def create (handle : Handle) (version : UInt64) : ResultCode × Store :=
  if s.entries.contains handle then (.failed, s)
  else match s.openNew fault handle version with
    | (some entry, s) => (.ok, s.setEntry handle entry)
    | (none, s) => (.failed, s)

/-- The buffer of `CreateCopy` and of `Pad`. -/
def bufferSize : Nat := 2 ^ 20

/-- The loop of `CreateCopy`; it runs once at least for each byte that is left. -/
def copyLoop (source : Bytes) (stop : Nat) : Nat → Bytes → Nat → Bool × Bytes
  | 0, target, _ => (true, target)
  | fuel + 1, target, done =>
      if done < stop then
        let step := min bufferSize (stop - done)
        match preadAll none 0 source step done with
        | none => (false, target)
        | some buf => copyLoop source stop fuel (overlay 0 target done buf) (done + step)
      else (true, target)

def createCopy (handle : Handle) (version : UInt64) (copyFrom : Handle) : ResultCode × Store :=
  match s.entries[copyFrom]? with
  | none => (.noSuchChunk, s)
  | some source =>
      if s.entries.contains handle then (.failed, s)
      else
        let file := s.chunkFile copyFrom
        match s.openNew fault handle version with
        | (none, s) => (.failed, s)
        | (some entry, s) =>
            let stop := ((fault.stops 4).map (min source.length)).getD source.length
            let (copied, target) := copyLoop file stop stop [] 0
            let s := s.setChunk handle target
            if !copied || (source.length ≠ 0 && (fault.stops 4).isSome) then (.failed, s)
            else
              let raw := source.checksums.flatMap encodeU32
              let (ok, sums) := pwriteAll fault 5 (s.metaFile handle) metaHeaderSize raw
              let s := s.setMeta handle sums
              if !ok || (fault.stops 6).isSome || (fault.stops 7).isSome then (.failed, s)
              else
                (.ok, s.setEntry handle
                  { entry with length := source.length, checksums := source.checksums })

/-- The checksum of block `b` in a buffer that was read from `start` on. -/
def blockCrc (buf : Bytes) (start b : Nat) : UInt32 :=
  let bs := b * shape.blockSize - start
  let be := min (bs + shape.blockSize) buf.length
  crc ((buf.drop bs).take (be - bs))

/-- `first` up to `last`. -/
def blocks (first last : Nat) : List Nat := List.range' first (last + 1 - first)

/-- `RecomputeBlocks`, on the chunk file and the meta file: two calls from `call` on. -/
def recomputeBlocks (call : Nat) (chunk sums : Bytes) (entry : Entry) (first last : Nat) :
    Bool × Entry × Bytes :=
  let needed := needed shape entry.length
  let entry := { entry with
    checksums := entry.checksums ++ List.replicate (needed - entry.checksums.length) 0 }
  if needed = 0 then (true, entry, sums)
  else
    let last := min last (needed - 1)
    if last < first then (true, entry, sums)
    else
      let start := first * shape.blockSize
      let stop := min (u64 ((last + 1) * shape.blockSize)) entry.length
      match preadAll fault call chunk (stop - start) start with
      | none => (false, entry, sums)
      | some buf =>
          let entry := { entry with
            checksums := (blocks first last).foldl
              (fun checksums b => checksums.set b (blockCrc shape crc buf start b)) entry.checksums }
          let raw := (blocks first last).flatMap fun b => encodeU32 (blockCrc shape crc buf start b)
          let (ok, sums) := pwriteAll fault (call + 1) sums (metaHeaderSize + 4 * first) raw
          (ok, entry, sums)

/-- The end of `Write` and `Pad`: calls 1 to 4. -/
def finish (handle : Handle) (entry : Entry) (first last : Nat) : ResultCode × Store :=
  let (ok, entry, sums) :=
    recomputeBlocks shape crc fault 1 (s.chunkFile handle) (s.metaFile handle) entry first last
  let s := (s.setEntry handle entry).setMeta handle sums
  (if ok && (fault.stops 3).isNone && (fault.stops 4).isNone then .ok else .failed, s)

def write (handle : Handle) (offset : Nat) (data : Bytes) : ResultCode × Store :=
  match s.entries[handle]? with
  | none => (.noSuchChunk, s)
  | some entry =>
      if shape.chunkSize < u64 (offset + data.length) then (.outOfRange, s)
      else if data = [] then (.ok, s)
      -- `pwrite` refuses a range whose end is negative as an `off_t`
      else if 2 ^ 63 ≤ offset + data.length then (.failed, s)
      else
        let (ok, file) := pwriteAll fault 0 (s.chunkFile handle) offset data
        let s := s.setChunk handle file
        if !ok then (.failed, s)
        else
          let length := max entry.length (u64 (offset + data.length))
          s.finish shape crc fault handle { entry with length }
            (min offset entry.length / shape.blockSize) ((length - 1) / shape.blockSize)

/-- The loop of `Pad` that writes zeros; it runs once at least for each byte that is left. -/
def zeroLoop (stop : Nat) : Nat → Bytes → Nat → Bytes
  | 0, file, _ => file
  | fuel + 1, file, pos =>
      if pos < stop then
        let step := min bufferSize (stop - pos)
        zeroLoop stop fuel (overlay 0 file pos (List.replicate step 0)) (pos + step)
      else file

def pad (handle : Handle) (fromOffset : Nat) : ResultCode × Store :=
  match s.entries[handle]? with
  | none => (.noSuchChunk, s)
  | some entry =>
      if shape.chunkSize < fromOffset then (.outOfRange, s)
      else
        let file := s.chunkFile handle
        let ok := (fault.stops 0).isNone && decide (shape.chunkSize < 2 ^ 63)
        let file :=
          if entry.length ≤ fromOffset then
            if ok then resize 0 shape.chunkSize file else file
          else
            let stop := ((fault.stops 0).map fun bytes => min shape.chunkSize (fromOffset + bytes)).getD
              (min shape.chunkSize (2 ^ 63))
            zeroLoop stop (stop - fromOffset) file fromOffset
        let s := s.setChunk handle file
        if !ok then (.failed, s)
        else
          s.finish shape crc fault handle { entry with length := shape.chunkSize }
            (min fromOffset entry.length / shape.blockSize)
            (sub64 shape.chunkSize 1 / shape.blockSize)

def setVersion (handle : Handle) (version : UInt64) : ResultCode × Store :=
  match s.entries[handle]? with
  | none => (.noSuchChunk, s)
  | some entry =>
      if entry.version = version then (.ok, s)
      else
        let (ok, file) := pwriteAll fault 0 (s.metaFile handle) 0 (encodeU64 version)
        let s := s.setMeta handle file
        if ok && (fault.stops 1).isNone then (.ok, s.setEntry handle { entry with version })
        else (.failed, s)

def remove (handle : Handle) : Bool × Store :=
  if s.entries.contains handle then
    (true, { s with
      chunks := s.chunks.erase handle
      metas := s.metas.erase handle
      entries := s.entries.erase handle
      corrupt := s.corrupt.filter (· ≠ handle) })
  else (false, s)

/-- `List`, in the order of the handles. -/
def list : List (Handle × UInt64 × Nat) :=
  (s.entries.map fun _ entry => (entry.version, entry.length)).toList

/-- `none` where the code throws: a buffer of negative size, or `substr` after the end. -/
def read (handle : Handle) (offset length : Nat) : Option (ResultCode × Bytes) × Store :=
  match s.entries[handle]? with
  | none => (some (.noSuchChunk, []), s)
  | some entry =>
      if entry.length < offset then (some (.outOfRange, []), s)
      else
        let stop := min (u64 (offset + length)) entry.length
        if stop = offset then (some (.ok, []), s)
        else
          let first := offset / shape.blockSize
          let last := sub64 stop 1 / shape.blockSize
          if entry.checksums.length ≤ last then (some (.checksumMismatch, []), s.markCorrupt handle)
          else
            let start := first * shape.blockSize
            let limit := min (u64 ((last + 1) * shape.blockSize)) entry.length
            if limit < start then (none, s)
            else match preadAll fault 0 (s.chunkFile handle) (limit - start) start with
              | none => (some (.failed, []), s)
              | some buf =>
                  if (blocks first last).all fun b =>
                      entry.checksums[b]? = some (blockCrc shape crc buf start b) then
                    if buf.length < offset - start then (none, s)
                    else
                      (some (.ok, (buf.drop (offset - start)).take (sub64 stop offset)), s)
                  else (some (.checksumMismatch, []), s.markCorrupt handle)

end Store

end Gfs.Chunkserver.Disk
