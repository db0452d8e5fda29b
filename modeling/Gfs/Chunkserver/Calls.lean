import Gfs.Chunkserver.Blocks
import Gfs.Lib.Maps

/-!
# What a call of the chunk store does

The inversion of a call whose system calls all succeed: which files and which entry it changes, and
how. `fits` keeps the rounding of a length up to blocks from overflowing and the length of a chunk
from being cut below that of its file.
-/

namespace Gfs.Chunkserver.Disk
open Lib.Maps Lib.Overlay

inductive Call
  | create (handle : Handle) (version : UInt64)
  | createCopy (handle : Handle) (version : UInt64) (copyFrom : Handle)
  | write (handle : Handle) (offset : Nat) (data : Bytes)
  | pad (handle : Handle) (fromOffset : Nat)
  | setVersion (handle : Handle) (version : UInt64)
  | remove (handle : Handle)
  | read (handle : Handle) (offset length : Nat)

namespace Store

def after (shape : Shape) (crc : Bytes → UInt32) (fault : Fault) (s : Store) : Call → Store
  | .create handle version => (s.create fault handle version).2
  | .createCopy handle version copyFrom => (s.createCopy fault handle version copyFrom).2
  | .write handle offset data => (s.write shape crc fault handle offset data).2
  | .pad handle fromOffset => (s.pad shape crc fault handle fromOffset).2
  | .setVersion handle version => (s.setVersion fault handle version).2
  | .remove handle => (s.remove handle).2
  | .read handle offset length => (s.read shape crc fault handle offset length).2

/-- No system call fails; those on the chunk files do so from offset 2^63 on. -/
def succeeds (shape : Shape) (s : Store) (fault : Fault) : Call → Bool
  | .write handle offset data => fault.isNone && (!s.entries.contains handle ||
      shape.chunkSize < u64 (offset + data.length) || data.isEmpty ||
      offset + data.length < 2 ^ 63)
  | .pad handle fromOffset => fault.isNone && (!s.entries.contains handle ||
      shape.chunkSize < fromOffset || shape.chunkSize < 2 ^ 63)
  | _ => fault.isNone

/-- The length of the chunk after the call can be rounded up to blocks in 64 bits, and `Pad` does not
make it shorter than the file. -/
def fits (shape : Shape) (s : Store) : Call → Bool
  | .write handle offset data =>
      match s.entries[handle]? with
      | some entry => shape.chunkSize < offset + data.length || data.isEmpty ||
          max entry.length (offset + data.length) + shape.blockSize ≤ 2 ^ 64
      | none => true
  | .pad handle fromOffset =>
      match s.entries[handle]? with
      | some entry => shape.chunkSize < fromOffset ||
          entry.length ≤ shape.chunkSize && shape.chunkSize + shape.blockSize ≤ 2 ^ 64
      | none => true
  | _ => true

structure At (s : Store) (handle : Handle) (chunk sums : Bytes) (entry : Entry) : Prop where
  chunk : s.chunks[handle]? = some chunk
  sums : s.metas[handle]? = some sums
  entry : s.entries[handle]? = some entry

def Filed (s : Store) : Prop :=
  ∀ (handle : Handle) entry, s.entries[handle]? = some entry →
    ∃ chunk sums, s.At handle chunk sums entry ∧ chunk.length = entry.length

structure Apart (s s' : Store) (handle : Handle) : Prop where
  chunks : ∀ other, other ≠ handle → s'.chunks[other]? = s.chunks[other]?
  metas : ∀ other, other ≠ handle → s'.metas[other]? = s.metas[other]?
  entries : ∀ other, other ≠ handle → s'.entries[other]? = s.entries[other]?
  otherChunks : s'.otherChunks = s.otherChunks
  otherMetas : s'.otherMetas = s.otherMetas
  corrupt : s'.corrupt = s.corrupt

inductive Change (shape : Shape) (crc : Bytes → UInt32) (s : Store) (handle : Handle) :
    Call → Bytes → Bytes → Entry → Prop
  | created {version : UInt64} (fresh : s.entries[handle]? = none)
      (noChunk : s.chunks[handle]? = none) (noMeta : s.metas[handle]? = none) :
      Change shape crc s handle (.create handle version) [] (encodeU64 version) { version }
  | copied {version : UInt64} {copyFrom : Handle} {chunk sums : Bytes} {source : Entry}
      (fresh : s.entries[handle]? = none)
      (noChunk : s.chunks[handle]? = none) (noMeta : s.metas[handle]? = none)
      (there : s.At copyFrom chunk sums source) :
      Change shape crc s handle (.createCopy handle version copyFrom) chunk
        (encodeU64 version ++ source.checksums.flatMap encodeU32)
        { version, length := source.length, checksums := source.checksums }
  | written {offset : Nat} {data chunk sums sums' : Bytes} {entry entry' : Entry}
      (there : s.At handle chunk sums entry) (length : chunk.length = entry.length)
      (some : data ≠ []) (inside : offset + data.length ≤ shape.chunkSize)
      (recomputed : Recomputed shape crc (overlay 0 chunk offset data) sums
        { entry with length := max entry.length (offset + data.length) }
        (min offset entry.length / shape.blockSize) entry' sums') :
      Change shape crc s handle (.write handle offset data) (overlay 0 chunk offset data) sums' entry'
  | padded {fromOffset : Nat} {chunk chunk' sums sums' : Bytes} {entry entry' : Entry}
      (there : s.At handle chunk sums entry) (length : chunk.length = entry.length)
      (below : entry.length ≤ shape.chunkSize) (inside : fromOffset ≤ shape.chunkSize)
      (some : min fromOffset entry.length / shape.blockSize * shape.blockSize < shape.chunkSize)
      (zeros : chunk' = ChunkStore.padded shape.chunkSize chunk fromOffset)
      (recomputed : Recomputed shape crc chunk' sums { entry with length := shape.chunkSize }
        (min fromOffset entry.length / shape.blockSize) entry' sums') :
      Change shape crc s handle (.pad handle fromOffset) chunk' sums' entry'
  | filled {fromOffset : Nat} {chunk sums : Bytes} {entry : Entry}
      (there : s.At handle chunk sums entry) (length : chunk.length = entry.length)
      (full : entry.length = shape.chunkSize) (behind : fromOffset = shape.chunkSize)
      (aligned : shape.chunkSize % shape.blockSize = 0)
      (rounds : entry.length + shape.blockSize ≤ 2 ^ 64) :
      Change shape crc s handle (.pad handle fromOffset) chunk sums { entry with
        checksums := (entry.checksums ++
          List.replicate (needed shape entry.length - entry.checksums.length) 0) }
  | versioned {version : UInt64} {chunk sums : Bytes} {entry : Entry}
      (there : s.At handle chunk sums entry) :
      Change shape crc s handle (.setVersion handle version) chunk
        (overlay 0 sums 0 (encodeU64 version)) { entry with version }

def Skips (shape : Shape) (s : Store) : Call → Prop
  | .create handle _ => (s.entries[handle]?).isSome ∨ (s.chunks[handle]?).isSome ∨
      (s.metas[handle]?).isSome
  | .createCopy handle _ copyFrom => s.entries[copyFrom]? = none ∨ (s.entries[handle]?).isSome ∨
      (s.chunks[handle]?).isSome ∨ (s.metas[handle]?).isSome
  | .write handle offset data => s.entries[handle]? = none ∨
      shape.chunkSize < u64 (offset + data.length) ∨ data = []
  | .pad handle fromOffset => s.entries[handle]? = none ∨ shape.chunkSize < fromOffset
  | .setVersion .. => True
  | .remove handle => s.entries[handle]? = none
  | .read .. => False

inductive Did (shape : Shape) (crc : Bytes → UInt32) (s : Store) (call : Call) (s' : Store) : Prop
  | idle (skips : s.Skips shape call) (same : s' = s)
  | looked (handle : Handle) (offset length : Nat) (isCall : call = .read handle offset length)
      (directory : s'.toDirectory = s.toDirectory) (entries : s'.entries = s.entries)
  | changed (handle : Handle) (chunk sums : Bytes) (entry : Entry)
      (change : Change shape crc s handle call chunk sums entry)
      (now : s'.At handle chunk sums entry) (apart : Apart s s' handle)
  | removed (handle : Handle) (isCall : call = .remove handle)
      (there : ∃ entry, s.entries[handle]? = some entry)
      (chunks : s'.chunks = s.chunks.erase handle) (metas : s'.metas = s.metas.erase handle)
      (entries : s'.entries = s.entries.erase handle)
      (otherChunks : s'.otherChunks = s.otherChunks) (otherMetas : s'.otherMetas = s.otherMetas)
      (corrupt : s'.corrupt = s.corrupt.filter (· ≠ handle))

section
variable {shape : Shape} {crc : Bytes → UInt32} {s s' : Store} {handle : Handle}
  {chunk sums : Bytes} {entry : Entry}

theorem getElem?_none_of_contains {β : Type} {m : Std.ExtTreeMap Handle β}
    (absent : ¬ m.contains handle = true) : m[handle]? = none :=
  Std.ExtTreeMap.getElem?_eq_none fun there => absent (Std.ExtTreeMap.contains_iff_mem.mpr there)

theorem contains_of_getElem? {β : Type} {m : Std.ExtTreeMap Handle β} {v : β}
    (found : m[handle]? = some v) : m.contains handle = true := by
  rw [← Std.ExtTreeMap.isSome_getElem?_eq_contains, found]
  rfl

/-- The three maps of the store, changed at one handle. -/
theorem touched (s' : Store) (chunks : s'.chunks = s.chunks.insert handle chunk)
    (metas : s'.metas = s.metas.insert handle sums)
    (entries : s'.entries = s.entries.insert handle entry)
    (otherChunks : s'.otherChunks = s.otherChunks) (otherMetas : s'.otherMetas = s.otherMetas)
    (corrupt : s'.corrupt = s.corrupt) :
    s'.At handle chunk sums entry ∧ Apart s s' handle := by
  refine ⟨⟨?_, ?_, ?_⟩, fun other different => ?_, fun other different => ?_,
    fun other different => ?_, otherChunks, otherMetas, corrupt⟩
  · rw [chunks, getElem?_insert, if_pos rfl]
  · rw [metas, getElem?_insert, if_pos rfl]
  · rw [entries, getElem?_insert, if_pos rfl]
  · rw [chunks, getElem?_insert, if_neg (Ne.symm different)]
  · rw [metas, getElem?_insert, if_neg (Ne.symm different)]
  · rw [entries, getElem?_insert, if_neg (Ne.symm different)]

theorem At.chunkFile (there : s.At handle chunk sums entry) : s.chunkFile handle = chunk := by
  rw [Store.chunkFile, there.chunk]
  rfl

theorem At.metaFile (there : s.At handle chunk sums entry) : s.metaFile handle = sums := by
  rw [Store.metaFile, there.sums]
  rfl

/-! ## The operations, one by one -/

theorem openNew_cases (s : Store) (handle : Handle) (version : UInt64) :
    ((s.chunks[handle]?).isSome ∨ (s.metas[handle]?).isSome) ∧
      s.openNew none handle version = (none, s) ∨
    s.chunks[handle]? = none ∧ s.metas[handle]? = none ∧
      s.openNew none handle version =
        (some { version }, (s.setChunk handle []).setMeta handle (encodeU64 version)) := by
  unfold openNew
  simp only [Fault.stops, Option.filter_none, Option.map_none, Option.isSome_none, Bool.or_false]
  split
  · rename_i there
    exact .inl ⟨.inl ((Std.ExtTreeMap.isSome_getElem?_eq_contains ..).trans there), rfl⟩
  · rename_i noChunk
    split
    · rename_i there
      exact .inl ⟨.inr ((Std.ExtTreeMap.isSome_getElem?_eq_contains ..).trans there), rfl⟩
    · rename_i noMeta
      right
      refine ⟨getElem?_none_of_contains noChunk, getElem?_none_of_contains noMeta, ?_⟩
      have written : overlay 0 ([] : Bytes) 0 (encodeU64 version) = encodeU64 version := by
        refine ext_getD (z := 0) ?_ fun p _ => ?_
        · rw [length_overlay (by simp [encodeU64])]
          simp
        · rw [getD_overlay]
          split
          · rfl
          · rw [getD_beyond (Nat.zero_le _), getD_beyond (by omega)]
      have filled : encodeU64 version ≠ [] := by simp [encodeU64]
      simp [pwriteAll, Fault.stops, written, filled]

theorem create_did {version : UInt64} :
    Did shape crc s (.create handle version) (s.create none handle version).2 := by
  unfold create
  split
  · rename_i there
    exact .idle (.inl ((Std.ExtTreeMap.isSome_getElem?_eq_contains ..).trans there)) rfl
  · rename_i fresh
    rcases openNew_cases s handle version with ⟨there, failed⟩ | ⟨noChunk, noMeta, opened⟩
    · rw [failed]
      exact .idle (.inr there) rfl
    · rw [opened]
      obtain ⟨now, apart⟩ := touched (s := s) (((s.setChunk handle []).setMeta handle
        (encodeU64 version)).setEntry handle { version }) rfl rfl rfl rfl rfl rfl
      exact .changed handle _ _ _
        (.created (getElem?_none_of_contains fresh) noChunk noMeta) now apart

theorem createCopy_did {version : UInt64} {copyFrom : Handle} (filed : s.Filed) :
    Did shape crc s (.createCopy handle version copyFrom)
      (s.createCopy none handle version copyFrom).2 := by
  unfold createCopy
  split
  · rename_i absent
    exact .idle (.inl absent) rfl
  · rename_i source found
    obtain ⟨chunk, sums, there, length⟩ := filed copyFrom source found
    split
    · rename_i there
      exact .idle (.inr (.inl ((Std.ExtTreeMap.isSome_getElem?_eq_contains ..).trans there))) rfl
    · rename_i fresh
      rcases openNew_cases s handle version with ⟨there', failed⟩ | ⟨noChunk, noMeta, opened⟩
      · rw [failed]
        exact .idle (.inr (.inr there')) rfl
      · have copied : copyLoop chunk source.length source.length [] 0 = (true, chunk) := by
          have all : copyLoop chunk source.length source.length [] 0 = _ :=
            copyLoop_eq source.length length.ge (Nat.le_refl _) (Nat.zero_le _) rfl
          rw [all, ← length, List.take_length]
        have file : ∀ t : Store, t.metas = s.metas.insert handle (encodeU64 version) →
            t.metaFile handle = encodeU64 version := by
          intro t metas
          rw [Store.metaFile, metas, getElem?_insert, if_pos rfl]
          rfl
        have appended : ∀ raw : Bytes, pwriteAll none 5 (encodeU64 version) metaHeaderSize raw =
            (true, encodeU64 version ++ raw) := by
          intro raw
          rw [pwriteAll]
          dsimp only [Fault.stops, Option.filter_none, Option.map_none]
          split
          · rename_i none
            rw [none, List.append_nil]
          · exact congrArg _ overlay_end
        rw [opened]
        simp only [Fault.stops, Option.filter_none, Option.map_none, Option.getD_none,
          there.chunkFile, copied, Option.isSome_none, Bool.and_false, Bool.or_false, Bool.not_true,
          Bool.false_eq_true, if_false]
        rw [file _ rfl, appended]
        simp only [Bool.not_true, Bool.false_eq_true, if_false]
        refine .changed handle _ _ _
          (.copied (getElem?_none_of_contains fresh) noChunk noMeta there) ⟨?_, ?_, ?_⟩ ?_
        · exact getElem?_insert.trans (if_pos rfl)
        · exact getElem?_insert.trans (if_pos rfl)
        · exact getElem?_insert.trans (if_pos rfl)
        · refine ⟨fun other different => ?_, fun other different => ?_, fun other different => ?_,
            rfl, rfl, rfl⟩
          · refine getElem?_insert.trans ((if_neg (Ne.symm different)).trans ?_)
            exact getElem?_insert.trans (if_neg (Ne.symm different))
          · refine getElem?_insert.trans ((if_neg (Ne.symm different)).trans ?_)
            exact getElem?_insert.trans (if_neg (Ne.symm different))
          · exact getElem?_insert.trans (if_neg (Ne.symm different))

theorem finish_did {chunk' : Bytes} {entry' : Entry} {call : Call} {first last : Nat}
    (there : s.At handle chunk sums entry)
    {changed : Entry} {sums' : Bytes} (recomputed : recomputeBlocks shape crc none 1 chunk' sums
      entry' first last = (true, changed, sums'))
    (change : Change shape crc s handle call chunk' sums' changed) :
    ((s.setChunk handle chunk').finish shape crc none handle entry' first last).1 = .ok ∧
      Did shape crc s call
        ((s.setChunk handle chunk').finish shape crc none handle entry' first last).2 := by
  have chunkFile : (s.setChunk handle chunk').chunkFile handle = chunk' := by
    rw [Store.chunkFile, Store.setChunk]
    dsimp only
    rw [getElem?_insert, if_pos rfl]
    rfl
  have metaFile : (s.setChunk handle chunk').metaFile handle = sums := there.metaFile
  unfold finish
  rw [chunkFile, metaFile, recomputed]
  obtain ⟨now, apart⟩ := touched (s := s)
    (((s.setChunk handle chunk').setEntry handle changed).setMeta handle sums')
    rfl rfl rfl rfl rfl rfl
  exact ⟨rfl, .changed handle _ _ _ change now apart⟩

theorem write_did {offset : Nat} {data : Bytes} (filed : s.Filed)
    (succeeds : succeeds shape s none (.write handle offset data) = true)
    (fits : fits shape s (.write handle offset data) = true) :
    Did shape crc s (.write handle offset data) (s.write shape crc none handle offset data).2 := by
  unfold write
  cases found : s.entries[handle]? with
  | none => exact .idle (.inl found) rfl
  | some entry =>
      obtain ⟨chunk, sums, there, length⟩ := filed handle entry found
      have known : s.entries.contains handle = true := contains_of_getElem? found
      simp only [Store.succeeds, Option.isNone_none, Bool.true_and, known, Bool.not_true,
        Bool.false_or, Bool.or_eq_true, decide_eq_true_eq, List.isEmpty_iff] at succeeds
      simp only [Store.fits, found, Bool.or_eq_true, decide_eq_true_eq, List.isEmpty_iff] at fits
      dsimp only
      split
      · rename_i outside
        exact .idle (.inr (.inl outside)) rfl
      · rename_i inside
        split
        · rename_i none
          exact .idle (.inr (.inr none)) rfl
        · rename_i some
          have short := succeeds.resolve_left (not_or.mpr ⟨inside, some⟩)
          have wrap : u64 (offset + data.length) = offset + data.length := u64_of_lt (by omega)
          rw [wrap] at inside ⊢
          have rounds := (fits.resolve_left (by rintro (far | none); exacts [inside far, some none]))
          have positive := List.length_pos_iff.mpr some
          rw [if_neg (by omega)]
          simp only [pwriteAll, Fault.stops, Option.filter_none, Option.map_none, there.chunkFile,
            some, if_false, Bool.not_true, Bool.false_eq_true]
          have size : (overlay 0 chunk offset data).length =
              max entry.length (offset + data.length) := by
            rw [length_overlay some, length]
          have ordered : min offset entry.length / shape.blockSize * shape.blockSize <
              max entry.length (offset + data.length) := by
            have below := Nat.div_mul_le_self (min offset entry.length) shape.blockSize
            omega
          obtain ⟨changed, sums', computed, recomputed⟩ := recomputeBlocks_spec crc 1 sums
            { entry with length := max entry.length (offset + data.length) } size rounds ordered
          exact (finish_did there computed
            (.written there length some (Nat.le_of_not_lt inside) recomputed)).2

theorem getD_padded {size start p : Nat} {data : Bytes} :
    (ChunkStore.padded size data start).getD p 0 = if p < start then data.getD p 0 else 0 := by
  unfold ChunkStore.padded
  dsimp only
  rw [getD_append_replicate, getD_take]

/-- Both branches of `Pad` do the same to a file that is not too long. -/
theorem zeroed_eq {size start : Nat} (inside : start ≤ size) (below : chunk.length ≤ size) :
    (if chunk.length ≤ start then resize 0 size chunk
      else zeroLoop size (size - start) chunk start) = ChunkStore.padded size chunk start := by
  split
  · rename_i behind
    refine ext_getD (z := 0) (by rw [length_resize, ChunkStore.length_padded inside]) fun p small => ?_
    rw [length_resize] at small
    rw [getD_resize, if_pos small, getD_padded]
    split
    · rfl
    · exact getD_beyond (by omega)
  · have filled : List.replicate (size - start) (0 : UInt8) ≠ [] := by
      intro none
      have width := congrArg List.length none
      rw [List.length_replicate, List.length_nil] at width
      omega
    rw [zeroLoop_eq _ (by omega) (Nat.le_refl _)]
    refine ext_getD (z := 0) ?_ fun p small => ?_
    · rw [length_overlay filled, ChunkStore.length_padded inside, List.length_replicate]
      omega
    · rw [length_overlay filled, List.length_replicate] at small
      rw [getD_overlay, getD_padded, List.length_replicate]
      split
      · rw [if_neg (by omega), ← List.nil_append (List.replicate _ (0 : UInt8)),
          getD_append_replicate]
        rfl
      · rw [if_pos (by omega)]

theorem pad_did {fromOffset : Nat} (filed : s.Filed)
    (succeeds : succeeds shape s none (.pad handle fromOffset) = true)
    (fits : fits shape s (.pad handle fromOffset) = true) :
    Did shape crc s (.pad handle fromOffset) (s.pad shape crc none handle fromOffset).2 := by
  unfold pad
  cases found : s.entries[handle]? with
  | none => exact .idle (.inl found) rfl
  | some entry =>
      obtain ⟨chunk, sums, there, length⟩ := filed handle entry found
      have known : s.entries.contains handle = true := contains_of_getElem? found
      simp only [Store.succeeds, Option.isNone_none, Bool.true_and, known, Bool.not_true,
        Bool.false_or, Bool.or_eq_true, decide_eq_true_eq] at succeeds
      simp only [Store.fits, found, Bool.or_eq_true, Bool.and_eq_true, decide_eq_true_eq] at fits
      dsimp only
      split
      · rename_i outside
        exact .idle (.inr outside) rfl
      · rename_i inside
        have succeeds := succeeds.resolve_left inside
        obtain ⟨below, rounds⟩ := fits.resolve_left inside
        have inside := Nat.le_of_not_lt inside
        have file := zeroed_eq inside (length.le.trans below)
        have limit : min shape.chunkSize (2 ^ 63) = shape.chunkSize := by omega
        simp only [Fault.stops, Option.filter_none, Option.map_none, Option.isNone_none,
          Option.getD_none, Bool.true_and, succeeds, decide_true, if_true, Bool.not_true,
          Bool.false_eq_true, if_false, there.chunkFile, limit]
        rw [← length, file, length]
        have size : (ChunkStore.padded shape.chunkSize chunk fromOffset).length = shape.chunkSize :=
          ChunkStore.length_padded inside
        by_cases some : min fromOffset entry.length / shape.blockSize * shape.blockSize <
            shape.chunkSize
        · rw [sub64_of_le (by omega) shape.chunkSize_lt]
          obtain ⟨changed, sums', computed, recomputed⟩ := recomputeBlocks_spec crc 1 sums
            { entry with length := shape.chunkSize } size rounds some
          exact (finish_did there computed (.padded there length below inside some rfl recomputed)).2
        · have least := Nat.div_mul_le_self (min fromOffset entry.length) shape.blockSize
          have full : entry.length = shape.chunkSize := by omega
          have behind : fromOffset = shape.chunkSize := by omega
          have aligned : shape.chunkSize % shape.blockSize = 0 := by
            have split := Nat.div_add_mod' shape.chunkSize shape.blockSize
            rw [behind, full, Nat.min_self] at some
            omega
          have same : ChunkStore.padded shape.chunkSize chunk fromOffset = chunk := by
            rw [ChunkStore.padded, List.take_of_length_le (by omega), length, full, Nat.sub_self,
              List.replicate_zero, List.append_nil]
          have unchanged : { entry with length := shape.chunkSize } = entry := by
            rw [← full]
          rw [same, unchanged]
          refine (finish_did there (recomputeBlocks_behind ?_ ?_)
            (.filled there length full behind aligned (full.symm ▸ rounds))).2
          · exact full.symm ▸ rounds
          · exact Nat.le_trans (Nat.le_of_eq full) (Nat.le_of_not_lt some)

theorem setVersion_did {version : UInt64} (filed : s.Filed) :
    Did shape crc s (.setVersion handle version) (s.setVersion none handle version).2 := by
  unfold setVersion
  cases found : s.entries[handle]? with
  | none => exact .idle trivial rfl
  | some entry =>
      obtain ⟨chunk, sums, there, _⟩ := filed handle entry found
      dsimp only
      split
      · exact .idle trivial rfl
      · have filled : encodeU64 version ≠ [] := by simp [encodeU64]
        simp only [pwriteAll, Fault.stops, Option.filter_none, Option.map_none, Option.isNone_none,
          Bool.and_true, filled, if_false, if_true, there.metaFile]
        refine .changed handle _ _ _ (.versioned there) ⟨there.chunk, ?_, ?_⟩ ⟨fun _ _ => rfl,
          fun other different => ?_, fun other different => ?_, rfl, rfl, rfl⟩
        · exact getElem?_insert.trans (if_pos rfl)
        · exact getElem?_insert.trans (if_pos rfl)
        · exact getElem?_insert.trans (if_neg (Ne.symm different))
        · exact getElem?_insert.trans (if_neg (Ne.symm different))

theorem remove_did : Did shape crc s (.remove handle) (s.remove handle).2 := by
  unfold remove
  split
  · rename_i there
    refine .removed handle rfl ?_ rfl rfl rfl rfl rfl rfl
    exact Option.isSome_iff_exists.mp ((Std.ExtTreeMap.isSome_getElem?_eq_contains ..).trans there)
  · rename_i absent
    exact .idle (getElem?_none_of_contains absent) rfl

theorem markCorrupt_same :
    (s.markCorrupt handle).toDirectory = s.toDirectory ∧
      (s.markCorrupt handle).entries = s.entries := by
  unfold markCorrupt
  split
  · exact ⟨rfl, rfl⟩
  · exact ⟨rfl, rfl⟩

theorem read_state {fault : Fault} {offset length : Nat} :
    (s.read shape crc fault handle offset length).2.toDirectory = s.toDirectory ∧
      (s.read shape crc fault handle offset length).2.entries = s.entries := by
  unfold read
  split
  · exact ⟨rfl, rfl⟩
  · split
    · exact ⟨rfl, rfl⟩
    · dsimp only
      split
      · exact ⟨rfl, rfl⟩
      · split
        · exact markCorrupt_same
        · split
          · exact ⟨rfl, rfl⟩
          · split
            · exact ⟨rfl, rfl⟩
            · split
              · split
                · exact ⟨rfl, rfl⟩
                · exact ⟨rfl, rfl⟩
              · exact markCorrupt_same

theorem after_did {fault : Fault} {call : Call} (filed : s.Filed)
    (succeeds : succeeds shape s fault call = true) (fits : fits shape s call = true) :
    Did shape crc s call (s.after shape crc fault call) := by
  have ok : fault = none := by
    cases call <;> simp_all [Store.succeeds]
  subst ok
  cases call with
  | create => exact create_did
  | createCopy => exact createCopy_did filed
  | write => exact write_did filed succeeds fits
  | pad => exact pad_did filed succeeds fits
  | setVersion => exact setVersion_did filed
  | remove => exact remove_did
  | read => exact .looked _ _ _ rfl read_state.1 read_state.2

end

end Store

end Gfs.Chunkserver.Disk
