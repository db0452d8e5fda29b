import Gfs.Chunkserver.ChunkStore

/-!
# Blocks and checksums

What the loops of the chunk store compute. `RecomputeBlocks` up to the last block gives every block
from the first one on the checksum of its bytes, in memory and in the meta file, and fills what was
missing before the first one with zeros in both.
-/

namespace Gfs.Chunkserver.Disk
open Lib.Overlay

theorem sub64_of_le {a b : Nat} (le : b ≤ a) (small : a < 2 ^ 64) : sub64 a b = a - b := by
  rw [sub64, u64]
  omega

/-! ## Numbers in the meta file -/

theorem length_encodeU32 (v : UInt32) : (encodeU32 v).length = 4 := rfl

theorem length_encodeU64 (v : UInt64) : (encodeU64 v).length = 8 := rfl

theorem decodeU32_congr {p q : Bytes} (same : ∀ i < 4, p.getD i 0 = q.getD i 0) :
    decodeU32 p = decodeU32 q := by
  simp only [decodeU32, List.range, List.range.loop, List.foldl_cons, List.foldl_nil]
  rw [same 0 (by decide), same 1 (by decide), same 2 (by decide), same 3 (by decide)]

theorem decodeU64_congr {p q : Bytes} (same : ∀ i < 8, p.getD i 0 = q.getD i 0) :
    decodeU64 p = decodeU64 q := by
  simp only [decodeU64, List.range, List.range.loop, List.foldl_cons, List.foldl_nil]
  rw [same 0 (by decide), same 1 (by decide), same 2 (by decide), same 3 (by decide),
    same 4 (by decide), same 5 (by decide), same 6 (by decide), same 7 (by decide)]

theorem decodeU32_encodeU32 (v : UInt32) : decodeU32 (encodeU32 v) = v := by
  apply UInt32.toBitVec_inj.mp
  simp only [decodeU32, encodeU32, List.range, List.range.loop, List.map_cons, List.map_nil,
    List.foldl_cons, List.foldl_nil, List.getD_cons_zero, List.getD_cons_succ]
  apply BitVec.eq_of_getLsbD_eq
  intro i inside
  simp only [UInt32.toBitVec_or, UInt32.toBitVec_shiftLeft, UInt8.toBitVec_toUInt32,
    UInt32.toBitVec_toUInt8, UInt32.toBitVec_shiftRight, BitVec.getLsbD_or]
  simp [BitVec.getLsbD_setWidth, -BitVec.setWidth_ushiftRight]
  grind

theorem decodeU64_encodeU64 (v : UInt64) : decodeU64 (encodeU64 v) = v := by
  apply UInt64.toBitVec_inj.mp
  simp only [decodeU64, encodeU64, List.range, List.range.loop, List.map_cons, List.map_nil,
    List.foldl_cons, List.foldl_nil, List.getD_cons_zero, List.getD_cons_succ]
  apply BitVec.eq_of_getLsbD_eq
  intro i inside
  simp only [UInt64.toBitVec_or, UInt64.toBitVec_shiftLeft, UInt8.toBitVec_toUInt64,
    UInt64.toBitVec_toUInt8, UInt64.toBitVec_shiftRight, BitVec.getLsbD_or]
  simp [BitVec.getLsbD_setWidth, -BitVec.setWidth_ushiftRight]
  grind

/-- The checksum of a block in a meta file, 0 where the file has a hole or has ended. -/
def sumAt (file : Bytes) (b : Nat) : UInt32 := decodeU32 (file.drop (metaHeaderSize + 4 * b))

section
variable {file : Bytes} {b first : Nat}

theorem sumAt_congr {file' : Bytes}
    (same : ∀ i < 4, file.getD (8 + 4 * b + i) 0 = file'.getD (8 + 4 * b + i) 0) :
    sumAt file b = sumAt file' b := by
  refine decodeU32_congr fun i inside => ?_
  rw [getD_drop, getD_drop]
  exact same i inside

theorem sumAt_beyond (beyond : file.length ≤ 8 + 4 * b) : sumAt file b = 0 := by
  have zeros : sumAt file b = sumAt [] b := by
    refine sumAt_congr fun i _ => ?_
    rw [getD_beyond (by omega), getD_beyond (Nat.zero_le _)]
  rw [zeros, sumAt, List.drop_nil]
  rfl

theorem sumAt_overlay {sums : List UInt32} : sumAt (overlay 0 file (8 + 4 * first)
    (sums.flatMap encodeU32)) b =
      if first ≤ b then (sums[b - first]?).getD (sumAt file b) else sumAt file b := by
  have width : (sums.flatMap encodeU32).length = 4 * sums.length :=
    length_flatMap_width length_encodeU32 sums
  by_cases inside : first ≤ b ∧ b - first < sums.length
  · rw [if_pos inside.1, List.getElem?_eq_getElem inside.2, Option.getD_some,
      ← decodeU32_encodeU32 sums[b - first]]
    refine decodeU32_congr fun i small => ?_
    rw [getD_drop, getD_overlay, width, metaHeaderSize, if_pos (by omega)]
    have position : 8 + 4 * b + i - (8 + 4 * first) = 4 * (b - first) + i := by omega
    rw [position, getD_flatMap_width length_encodeU32 (List.getElem?_eq_getElem inside.2) small]
  · have same : sumAt (overlay 0 file (8 + 4 * first) (sums.flatMap encodeU32)) b = sumAt file b := by
      refine sumAt_congr fun i small => ?_
      rw [getD_overlay, width, if_neg (by omega)]
    rw [same]
    split
    · rw [List.getElem?_eq_none (by omega)]
      rfl
    · rfl

theorem decodeU64_overlay {new : Bytes} :
    decodeU64 (overlay 0 file (8 + 4 * first) new) = decodeU64 file := by
  refine decodeU64_congr fun i small => ?_
  rw [getD_overlay, if_neg (by omega)]

theorem sumAt_version {version : UInt64} :
    sumAt (overlay 0 file 0 (encodeU64 version)) b = sumAt file b := by
  refine sumAt_congr fun i small => ?_
  rw [getD_overlay, length_encodeU64, if_neg (by omega)]

theorem decodeU64_version {version : UInt64} :
    decodeU64 (overlay 0 file 0 (encodeU64 version)) = version := by
  rw [← decodeU64_encodeU64 version]
  refine decodeU64_congr fun i small => ?_
  rw [getD_overlay, length_encodeU64, if_pos (by omega), Nat.sub_zero, decodeU64_encodeU64]

end

/-! ## Which blocks there are -/

namespace Store
variable {shape : Shape} {crc : Bytes → UInt32} {length b first last call : Nat}

theorem lt_needed (fits : length + shape.blockSize ≤ 2 ^ 64) :
    b < needed shape length ↔ b * shape.blockSize < length := by
  have positive := shape.positive
  rw [needed, u64_of_lt (by omega), ← Nat.succ_le_iff, Nat.le_div_iff_mul_le positive,
    Nat.succ_mul]
  omega

theorem le_last (some : 0 < length) :
    b ≤ (length - 1) / shape.blockSize ↔ b * shape.blockSize < length := by
  rw [Nat.le_div_iff_mul_le shape.positive]
  omega

theorem needed_eq (some : 0 < length) (fits : length + shape.blockSize ≤ 2 ^ 64) :
    needed shape length = (length - 1) / shape.blockSize + 1 := by
  refine Nat.le_antisymm (Nat.le_of_not_lt fun more => ?_) ?_
  · have inside := (le_last some).mpr ((lt_needed fits).mp more)
    omega
  · exact (lt_needed fits).mpr ((le_last some).mp (Nat.le_refl _))

theorem mem_blocks : b ∈ blocks first last ↔ first ≤ b ∧ b ≤ last := by
  rw [blocks, List.mem_range'_1]
  omega

/-- A block in a buffer that holds the file from one block up to the end of another. -/
theorem blockCrc_eq {chunk : Bytes} (inside : last * shape.blockSize < chunk.length)
    (from_ : first ≤ b) (upTo : b ≤ last) :
    blockCrc shape crc ((chunk.drop (first * shape.blockSize)).take
      (min ((last + 1) * shape.blockSize) chunk.length - first * shape.blockSize))
      (first * shape.blockSize) b = crc (page shape.blockSize chunk b) := by
  have start : first * shape.blockSize ≤ b * shape.blockSize := Nat.mul_le_mul_right _ from_
  have stop : b * shape.blockSize ≤ last * shape.blockSize := Nat.mul_le_mul_right _ upTo
  have next : b < last → (b + 1) * shape.blockSize ≤ last * shape.blockSize := fun less =>
    Nat.mul_le_mul_right _ less
  rw [Nat.add_one_mul] at next
  unfold blockCrc page
  dsimp only
  refine congrArg crc (ext_getD (z := 0) ?_ fun p small => ?_)
  · simp only [List.length_take, List.length_drop, Nat.add_one_mul]
    rcases Nat.lt_or_eq_of_le upTo with less | rfl
    · have := next less
      omega
    · omega
  · simp only [List.length_take, List.length_drop, Nat.add_one_mul] at small
    rw [getD_take, getD_drop, getD_take, getD_drop, getD_take, getD_drop]
    simp only [List.length_take, List.length_drop, Nat.add_one_mul]
    have position : first * shape.blockSize + (b * shape.blockSize - first * shape.blockSize + p) =
        b * shape.blockSize + p := by omega
    rw [position, if_pos (by omega), if_pos (by omega), if_pos (by omega)]

/-- Every block from the first one on has the checksum of its bytes; those before are as they were,
with zeros where there were none. -/
structure Recomputed (shape : Shape) (crc : Bytes → UInt32) (chunk sums : Bytes) (entry : Entry)
    (first : Nat) (entry' : Entry) (sums' : Bytes) : Prop where
  version : entry'.version = entry.version
  length : entry'.length = entry.length
  count : entry'.checksums.length = max entry.checksums.length (needed shape entry.length)
  kept : ∀ b < first, entry'.checksums[b]? = some (entry.checksums.getD b 0)
  fresh : ∀ b, first ≤ b → b * shape.blockSize < entry.length →
    entry'.checksums[b]? = some (crc (page shape.blockSize chunk b))
  header : decodeU64 sums' = decodeU64 sums
  whole : ∀ k, sums.length = 8 + 4 * k → ∃ k', sums'.length = 8 + 4 * k' ∧
    ∀ b, b * shape.blockSize < entry.length → b < k'
  sumKept : ∀ b < first, sumAt sums' b = sumAt sums b
  sumFresh : ∀ b, first ≤ b → b * shape.blockSize < entry.length →
    sumAt sums' b = crc (page shape.blockSize chunk b)

variable {chunk sums : Bytes} {entry : Entry}

theorem getElem?_resized {checksums : List UInt32} {n : Nat} (inside : b < n) :
    (checksums ++ List.replicate (n - checksums.length) 0)[b]? = some (checksums.getD b 0) := by
  by_cases there : b < checksums.length
  · rw [List.getElem?_append_left there, List.getElem?_eq_getElem there,
      List.getD_eq_getElem _ _ there]
  · rw [List.getElem?_append_right (Nat.le_of_not_lt there), List.getElem?_replicate, if_pos (by omega),
      getD_beyond (Nat.le_of_not_lt there)]

theorem flatMap_blocks {f : Nat → UInt32} :
    ((blocks first last).flatMap fun b => encodeU32 (f b)) =
      ((blocks first last).map f).flatMap encodeU32 := by
  rw [List.flatMap_map]

theorem getElem?_blocks {f : Nat → UInt32} (from_ : first ≤ b) (upTo : b ≤ last) :
    ((blocks first last).map f)[b - first]? = some (f b) := by
  rw [List.getElem?_map, blocks, List.getElem?_range' (by omega)]
  simp [from_]

theorem recomputeBlocks_spec (crc : Bytes → UInt32) (call : Nat) (sums : Bytes) (entry : Entry)
    (length : chunk.length = entry.length)
    (fits : entry.length + shape.blockSize ≤ 2 ^ 64)
    (ordered : first * shape.blockSize < entry.length) :
    ∃ entry' sums', recomputeBlocks shape crc none call chunk sums entry first
        ((entry.length - 1) / shape.blockSize) = (true, entry', sums') ∧
      Recomputed shape crc chunk sums entry first entry' sums' := by
  have some : 0 < entry.length := Nat.zero_lt_of_lt ordered
  obtain ⟨last, isLast⟩ : ∃ last, last = (entry.length - 1) / shape.blockSize := ⟨_, rfl⟩
  have inside : ∀ {b}, b ≤ last ↔ b * shape.blockSize < entry.length := by
    rw [isLast]
    exact le_last some
  have lastIn := inside.mp (Nat.le_refl last)
  have upTo := inside.mpr ordered
  have count : needed shape entry.length = last + 1 := by rw [needed_eq some fits, isLast]
  have small : (last + 1) * shape.blockSize < 2 ^ 64 := by
    rw [Nat.add_one_mul]
    omega
  have start : first * shape.blockSize ≤ last * shape.blockSize := Nat.mul_le_mul_right _ upTo
  obtain ⟨buf, isBuf⟩ : ∃ buf : Bytes, buf = (chunk.drop (first * shape.blockSize)).take
    (min ((last + 1) * shape.blockSize) chunk.length - first * shape.blockSize) := ⟨_, rfl⟩
  obtain ⟨resized, isResized⟩ : ∃ resized : List UInt32, resized =
    entry.checksums ++ List.replicate (last + 1 - entry.checksums.length) 0 := ⟨_, rfl⟩
  have crcs : ∀ b, first ≤ b → b ≤ last →
      blockCrc shape crc buf (first * shape.blockSize) b = crc (page shape.blockSize chunk b) := by
    intro b from_ upTo
    rw [isBuf]
    exact blockCrc_eq (length ▸ lastIn) from_ upTo
  have raw : ((blocks first last).flatMap fun b =>
      encodeU32 (blockCrc shape crc buf (first * shape.blockSize) b)) ≠ [] := by
    intro none
    have width := congrArg List.length none
    rw [flatMap_blocks, length_flatMap_width length_encodeU32, List.length_map, blocks,
      List.length_range', List.length_nil] at width
    omega
  have computed : recomputeBlocks shape crc none call chunk sums entry first last =
      (true, { entry with checksums := (blocks first last).foldl (fun checksums b =>
          checksums.set b (blockCrc shape crc buf (first * shape.blockSize) b)) resized },
        overlay 0 sums (metaHeaderSize + 4 * first) ((blocks first last).flatMap fun b =>
          encodeU32 (blockCrc shape crc buf (first * shape.blockSize) b))) := by
    unfold recomputeBlocks
    have read : preadAll none call chunk (min ((last + 1) * shape.blockSize) entry.length -
        first * shape.blockSize) (first * shape.blockSize) = Option.some buf := by
      rw [isBuf, preadAll, length]
      have positive := shape.positive
      rw [Nat.add_one_mul]
      rw [if_neg (by omega), if_neg (by simp [Fault.stops]), if_pos (by omega)]
    rw [count, if_neg (Nat.succ_ne_zero _), Nat.add_sub_cancel]
    dsimp only
    rw [Nat.min_self, if_neg (Nat.not_lt.mpr upTo), u64_of_lt small, read]
    dsimp only
    rw [pwriteAll, ← isResized]
    simp only [Fault.stops, Option.filter_none, Option.map_none, raw, if_false]
  rw [← isLast]
  refine ⟨_, _, computed, ⟨rfl, rfl, ?_, fun b before => ?_, fun b from_ below => ?_, ?_,
    fun k whole => ?_, fun b before => ?_, fun b from_ below => ?_⟩⟩
  · show ((blocks first last).foldl _ resized).length = _
    rw [length_foldl_set, isResized, List.length_append, List.length_replicate, count]
    omega
  · show ((blocks first last).foldl _ resized)[b]? = _
    rw [getElem?_foldl_set, if_neg fun both => absurd (mem_blocks.mp both.1).1 (Nat.not_le.mpr before),
      isResized]
    exact getElem?_resized (by omega)
  · have upTo := inside.mpr below
    show ((blocks first last).foldl _ resized)[b]? = _
    rw [getElem?_foldl_set, if_pos, crcs b from_ upTo]
    refine ⟨mem_blocks.mpr ⟨from_, upTo⟩, ?_⟩
    rw [isResized, List.length_append, List.length_replicate]
    omega
  · exact decodeU64_overlay
  · refine ⟨max k (last + 1), ?_, fun b below => ?_⟩
    · rw [length_overlay raw, whole, flatMap_blocks, length_flatMap_width length_encodeU32,
        List.length_map, blocks, List.length_range', metaHeaderSize]
      omega
    · have upTo := inside.mpr below
      omega
  · rw [metaHeaderSize, flatMap_blocks, sumAt_overlay, if_neg (Nat.not_le.mpr before)]
  · have upTo := inside.mpr below
    rw [metaHeaderSize, flatMap_blocks, sumAt_overlay, if_pos from_, getElem?_blocks from_ upTo,
      Option.getD_some, crcs b from_ upTo]

theorem recomputeBlocks_behind (fits : entry.length + shape.blockSize ≤ 2 ^ 64)
    (behind : entry.length ≤ first * shape.blockSize) :
    recomputeBlocks shape crc none call chunk sums entry first last =
      (true, { entry with checksums := (entry.checksums ++
        List.replicate (needed shape entry.length - entry.checksums.length) 0) }, sums) := by
  unfold recomputeBlocks
  dsimp only
  split
  · rfl
  · rename_i some
    have outside : ¬ first < needed shape entry.length := by
      rw [lt_needed fits]
      exact Nat.not_lt.mpr behind
    rw [if_pos (by omega)]

/-! ## The loops of `Pad` and `CreateCopy` -/

theorem overlay_zeros {file : Bytes} {pos step rest : Nat} (some : 0 < step) (more : 0 < rest) :
    overlay 0 (overlay 0 file pos (List.replicate step 0)) (pos + step) (List.replicate rest 0) =
      overlay 0 file pos (List.replicate (step + rest) 0) := by
  have filled : ∀ {n : Nat}, 0 < n → List.replicate n (0 : UInt8) ≠ [] := by
    intro n positive none
    have := congrArg List.length none
    rw [List.length_replicate, List.length_nil] at this
    omega
  refine ext_getD (z := 0) ?_ fun p _ => ?_
  · rw [length_overlay (filled more), length_overlay (filled some), length_overlay (filled (by omega))]
    simp only [List.length_replicate]
    omega
  · have zero : ∀ {n i : Nat}, (List.replicate n (0 : UInt8)).getD i 0 = 0 := by
      intro n i
      rw [← List.nil_append (List.replicate n (0 : UInt8)), getD_append_replicate]
      rfl
    rw [getD_overlay, getD_overlay, getD_overlay]
    simp only [List.length_replicate, zero]
    split
    · rw [if_pos (by omega)]
    · split
      · rw [if_pos (by omega)]
      · rw [if_neg (by omega)]

theorem zeroLoop_eq {stop : Nat} (fuel : Nat) {file : Bytes} {pos : Nat} (some : pos < stop)
    (enough : stop - pos ≤ fuel) :
    zeroLoop stop fuel file pos = overlay 0 file pos (List.replicate (stop - pos) 0) := by
  induction fuel generalizing file pos with
  | zero => omega
  | succ fuel ih =>
      have positive : 0 < bufferSize := by decide
      rw [zeroLoop, if_pos some]
      dsimp only
      by_cases more : pos + min bufferSize (stop - pos) < stop
      · rw [ih more (by omega), overlay_zeros (by omega) (by omega)]
        congr 2
        omega
      · have step : min bufferSize (stop - pos) = stop - pos := by omega
        rw [step]
        cases fuel with
        | zero => rfl
        | succ fuel => rw [zeroLoop, if_neg (by omega)]

theorem copyLoop_eq {source : Bytes} {stop : Nat} (fuel : Nat) {target : Bytes} {done : Nat}
    (inside : stop ≤ source.length) (enough : stop - done ≤ fuel) (copied : done ≤ stop)
    (same : target = source.take done) :
    copyLoop source stop fuel target done = (true, source.take stop) := by
  induction fuel generalizing target done with
  | zero =>
      have stopped : done = stop := by omega
      rw [copyLoop, same, stopped]
  | succ fuel ih =>
      have positive : 0 < bufferSize := by decide
      rw [copyLoop]
      split
      · rename_i more
        dsimp only
        have read : preadAll none 0 source (min bufferSize (stop - done)) done =
            some ((source.drop done).take (min bufferSize (stop - done))) := by
          rw [preadAll, if_neg (by omega), if_neg (by simp [Fault.stops]), if_pos (by omega)]
        rw [read]
        dsimp only
        refine ih (by omega) (by omega) ?_
        have part : ((source.drop done).take (min bufferSize (stop - done))).length =
            min bufferSize (stop - done) := by
          rw [List.length_take, List.length_drop]
          omega
        have filled : (source.drop done).take (min bufferSize (stop - done)) ≠ [] := by
          intro none
          rw [none, List.length_nil] at part
          omega
        refine ext_getD (z := 0) ?_ fun p _ => ?_
        · rw [length_overlay filled, part, same, List.length_take, List.length_take]
          omega
        · rw [getD_overlay, part, same, getD_take, getD_take, getD_take, getD_drop]
          by_cases here : done ≤ p ∧ p < done + min bufferSize (stop - done)
          · rw [if_pos here, if_pos (by omega), if_pos here.2]
            congr 1
            omega
          · rw [if_neg here]
            by_cases before : p < done
            · rw [if_pos before, if_pos (by omega)]
            · rw [if_neg before, if_neg (by omega)]
      · have stopped : done = stop := by omega
        rw [same, stopped]

end Store

end Gfs.Chunkserver.Disk
