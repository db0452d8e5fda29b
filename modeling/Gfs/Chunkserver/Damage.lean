import Gfs.Chunkserver.PlainArray

/-!
# Changes of chunk files from outside

A second store takes the same calls with the same faults and is not damaged: its bytes are the ones
that the operations wrote. Every block of the damaged store has the bytes of the intact one or a
checksum that is right for those, as long as `RecomputeBlocks` never reads a damaged byte.
-/

namespace Gfs.Chunkserver.Disk
open Lib.Maps Lib.Overlay Lib.Transition

structure Twins where
  store : Store
  intact : Store

namespace Twins

inductive Event
  | call (call : Call) (fault : Fault)
  | damage (handle : Handle) (position : Nat) (byte : UInt8)

def step (shape : Shape) (crc : Bytes → UInt32) (t : Twins) : Event → Option Twins
  | .call call fault =>
      some ⟨t.store.after shape crc fault call, t.intact.after shape crc fault call⟩
  | .damage handle position byte =>
      let chunk := t.store.chunkFile handle
      if position < chunk.length then
        some { t with store := t.store.setChunk handle (chunk.set position byte) }
      else none

/-- A store that has scanned a directory. -/
def Initial (shape : Shape) (t : Twins) : Prop :=
  ∃ directory : Directory, (∀ (handle : Handle) chunk, directory.chunks[handle]? = some chunk →
    chunk.length ≤ 2 ^ 63) ∧ t = ⟨Store.scan shape directory, Store.scan shape directory⟩

/-- From `start` on the files agree outside what is overwritten. -/
def agree (chunk chunk' : Bytes) (start size from_ upTo : Nat) : Bool :=
  (List.range size).all fun p =>
    p < start || from_ ≤ p && p < upTo || chunk.getD p 0 = chunk'.getD p 0

/-- Where the loop of `Pad` stops. -/
def zeroed (shape : Shape) (fault : Fault) (fromOffset : Nat) : Nat :=
  ((fault.stops 0).map fun bytes => min shape.chunkSize (fromOffset + bytes)).getD
    (min shape.chunkSize (2 ^ 63))

/-- `Write` and `Pad` find the bytes that they do not overwrite as they were written, in all blocks
from the first one that they recompute, and only blocks that have the checksum of what was written
are changed from outside. -/
def untainted (shape : Shape) (crc : Bytes → UInt32) (t : Twins) : Event → Bool
  | .call (.write handle offset data) fault =>
      match t.intact.entries[handle]? with
      | none => true
      | some entry =>
          shape.chunkSize < u64 (offset + data.length) || data.isEmpty ||
          2 ^ 63 ≤ offset + data.length ||
          agree (t.store.chunkFile handle) (t.intact.chunkFile handle)
            (min offset entry.length / shape.blockSize * shape.blockSize)
            (max entry.length (offset + data.length))
            offset (offset + (data.take ((fault.stops 0).getD data.length)).length)
  | .call (.pad handle fromOffset) fault =>
      match t.intact.entries[handle]? with
      | none => true
      | some entry =>
          shape.chunkSize < fromOffset ||
          agree (t.store.chunkFile handle) (t.intact.chunkFile handle)
            (min fromOffset entry.length / shape.blockSize * shape.blockSize)
            (max entry.length shape.chunkSize)
            fromOffset (if entry.length ≤ fromOffset then 0 else zeroed shape fault fromOffset)
  | .call _ _ => true
  | .damage handle position _ =>
      match t.intact.entries[handle]? with
      | none => true
      | some entry => entry.length ≤ position ||
          Store.Clean shape crc (t.intact.chunkFile handle) entry (position / shape.blockSize)

/-- The checksum tells the blocks on the disk from the blocks that were written. -/
def Distinct (shape : Shape) (crc : Bytes → UInt32) (t : Twins) : Prop :=
  ∀ known ∈ t.store.entries.toList, ∀ b ∈ List.range (known.2.length / shape.blockSize + 1),
    let block := page shape.blockSize ((t.store.chunkFile known.1).take known.2.length) b
    let written := page shape.blockSize ((t.intact.chunkFile known.1).take known.2.length) b
    crc block = crc written → block = written

instance {shape : Shape} {crc : Bytes → UInt32} {t : Twins} : Decidable (Distinct shape crc t) :=
  inferInstanceAs (Decidable (∀ known ∈ t.store.entries.toList, ∀ b ∈ List.range _, _))

end Twins

structure Twin (shape : Shape) (crc : Bytes → UInt32) (entry : Entry) (chunk chunk' : Bytes) :
    Prop where
  length : chunk.length = chunk'.length
  size : entry.length ≤ chunk'.length
  bounded : entry.length ≤ 2 ^ 63
  count : entry.checksums.length ≤ (2 ^ 64 - 1) / shape.blockSize
  pages : ∀ b, b * shape.blockSize < entry.length →
    page shape.blockSize (chunk.take entry.length) b =
      page shape.blockSize (chunk'.take entry.length) b ∨ Store.Clean shape crc chunk' entry b

inductive AlikeAt (shape : Shape) (crc : Bytes → UInt32) (s t : Store) (handle : Handle) : Prop
  | closed (entry : s.entries[handle]? = none) (entry' : t.entries[handle]? = none)
      (metas : s.metas[handle]? = t.metas[handle]?)
      (lengths : (s.chunks[handle]?).map List.length = (t.chunks[handle]?).map List.length)
  | opened {chunk chunk' sums : Bytes} {entry : Entry} (there : s.At handle chunk sums entry)
      (there' : t.At handle chunk' sums entry) (twin : Twin shape crc entry chunk chunk')

def Alike (shape : Shape) (crc : Bytes → UInt32) (s t : Store) : Prop :=
  ∀ handle, AlikeAt shape crc s t handle

structure Aside (s s' : Store) (handle : Handle) : Prop where
  chunks : ∀ other, other ≠ handle → s'.chunks[other]? = s.chunks[other]?
  metas : ∀ other, other ≠ handle → s'.metas[other]? = s.metas[other]?
  entries : ∀ other, other ≠ handle → s'.entries[other]? = s.entries[other]?

section
variable {shape : Shape} {crc : Bytes → UInt32} {fault : Fault} {s s' t t' : Store}
  {handle : Handle} {chunk chunk' new new' sums : Bytes} {entry entry' : Entry}

/-! ## One chunk -/

theorem Twin.edit (twin : Twin shape crc entry chunk chunk') {first : Nat}
    (length : new.length = new'.length) (size : entry'.length ≤ new'.length)
    (bounded : entry'.length ≤ 2 ^ 63)
    (count : entry'.checksums.length ≤ (2 ^ 64 - 1) / shape.blockSize)
    (before : first * shape.blockSize ≤ entry.length)
    (before' : first * shape.blockSize ≤ entry'.length)
    (kept : ∀ b < first, ∀ c, entry.checksums[b]? = some c → entry'.checksums[b]? = some c)
    (same : ∀ p < first * shape.blockSize, new.getD p 0 = chunk.getD p 0)
    (same' : ∀ p < first * shape.blockSize, new'.getD p 0 = chunk'.getD p 0)
    (agree : ∀ p, first * shape.blockSize ≤ p → p < entry'.length → new.getD p 0 = new'.getD p 0) :
    Twin shape crc entry' new new' := by
  have width : ∀ {file : Bytes} {n : Nat}, n ≤ file.length → (file.take n).length = n := by
    intro file n le
    rw [List.length_take, Nat.min_eq_left le]
  refine ⟨length, size, bounded, count, fun b inside => ?_⟩
  by_cases later : first ≤ b
  · left
    refine page_congr 0 (by rw [width size, width (length ▸ size)]) fun p above _ => ?_
    rw [getD_take, getD_take]
    split
    · exact agree p ((Nat.mul_le_mul_right _ later).trans above) ‹_›
    · rfl
  · have early := Nat.lt_of_not_le later
    have next : (b + 1) * shape.blockSize ≤ first * shape.blockSize := Nat.mul_le_mul_right _ early
    have inside' : b * shape.blockSize < entry.length := by
      have positive := shape.positive
      rw [Nat.add_one_mul] at next
      omega
    have unchanged : ∀ {file file' : Bytes}, entry.length ≤ file.length →
        entry'.length ≤ file'.length →
        (∀ p < first * shape.blockSize, file'.getD p 0 = file.getD p 0) →
        page shape.blockSize (file'.take entry'.length) b =
          page shape.blockSize (file.take entry.length) b := by
      intro file file' le le' same
      refine page_full 0 ?_ ?_ fun p _ upTo => ?_
      · rw [width le']
        omega
      · rw [width le]
        omega
      · rw [getD_take, getD_take, if_pos (by omega), if_pos (by omega)]
        exact same p (by omega)
    have now := unchanged twin.size size same'
    rcases twin.pages b inside' with equal | clean
    · left
      rw [now, unchanged (twin.length ▸ twin.size) (length ▸ size) same, equal]
    · right
      rw [Store.Clean, now]
      exact kept b early _ clean

theorem Twin.congr (twin : Twin shape crc entry chunk chunk') (length : entry'.length = entry.length)
    (checksums : entry'.checksums = entry.checksums) : Twin shape crc entry' chunk chunk' := by
  refine ⟨twin.length, length ▸ twin.size, length ▸ twin.bounded, checksums ▸ twin.count,
    fun b inside => ?_⟩
  rw [Store.Clean, length, checksums]
  exact twin.pages b (length ▸ inside)

theorem Twin.empty {version : UInt64} : Twin shape crc { version } [] [] :=
  ⟨rfl, Nat.le_refl _, Nat.zero_le _, Nat.zero_le _,
    fun _ inside => absurd inside (Nat.not_lt_zero _)⟩

/-! ## `RecomputeBlocks` -/

namespace Store
variable {first last call : Nat}

theorem preadAll_congr {length offset : Nat} (same : chunk.length = chunk'.length)
    (agree : ∀ p, offset ≤ p → p < offset + length → chunk.getD p 0 = chunk'.getD p 0) :
    preadAll fault call chunk length offset = preadAll fault call chunk' length offset := by
  have part : (chunk.drop offset).take length = (chunk'.drop offset).take length := by
    refine ext_getD (z := 0) (by rw [List.length_take, List.length_take, List.length_drop,
      List.length_drop, same]) fun p inside => ?_
    rw [List.length_take] at inside
    rw [getD_take, getD_take, getD_drop, getD_drop, if_pos (by omega), if_pos (by omega)]
    exact agree _ (by omega) (by omega)
  rw [preadAll, preadAll, same, part]

theorem recomputeBlocks_congr (same : chunk.length = chunk'.length)
    (agree : ∀ p, first * shape.blockSize ≤ p → p < entry.length →
      chunk.getD p 0 = chunk'.getD p 0) :
    recomputeBlocks shape crc fault call chunk sums entry first last =
      recomputeBlocks shape crc fault call chunk' sums entry first last := by
  unfold recomputeBlocks
  dsimp only
  split
  · rfl
  · split
    · rfl
    · rw [preadAll_congr same]
      intro p above below
      exact agree p above (by omega)

/-- What stays, also where a system call fails. -/
theorem recomputeBlocks_kept {ok : Bool} {sums' : Bytes} (computed :
      recomputeBlocks shape crc fault call chunk sums entry first last = (ok, entry', sums')) :
    entry'.length = entry.length ∧
      entry'.checksums.length = max entry.checksums.length (needed shape entry.length) ∧
      ∀ b < first, ∀ c, entry.checksums[b]? = some c → entry'.checksums[b]? = some c := by
  have width : (entry.checksums ++ List.replicate
      (needed shape entry.length - entry.checksums.length) 0).length =
      max entry.checksums.length (needed shape entry.length) := by
    rw [List.length_append, List.length_replicate]
    omega
  have kept : ∀ (b : Nat) c, entry.checksums[b]? = some c → (entry.checksums ++ List.replicate
      (needed shape entry.length - entry.checksums.length) 0)[b]? = some c := by
    intro b c found
    rw [List.getElem?_append_left (List.getElem?_eq_some_iff.mp found).1]
    exact found
  unfold recomputeBlocks at computed
  dsimp only at computed
  split at computed
  · cases computed
    exact ⟨rfl, width, fun b _ => kept b⟩
  · split at computed
    · cases computed
      exact ⟨rfl, width, fun b _ => kept b⟩
    · split at computed
      · cases computed
        exact ⟨rfl, width, fun b _ => kept b⟩
      · cases computed
        refine ⟨rfl, by rw [length_foldl_set, width], fun b before c found => ?_⟩
        rw [getElem?_foldl_set, if_neg fun both =>
          absurd (mem_blocks.mp both.1).1 (Nat.not_le.mpr before)]
        exact kept b c found

theorem needed_le {length : Nat} : needed shape length ≤ (2 ^ 64 - 1) / shape.blockSize := by
  refine Nat.div_le_div_right ?_
  have small : u64 (length + shape.blockSize - 1) < 2 ^ 64 := Nat.mod_lt _ (by decide)
  omega

end Store

/-! ## The operations on both stores -/

theorem Aside.refl : Aside s s handle :=
  ⟨fun _ _ => rfl, fun _ _ => rfl, fun _ _ => rfl⟩

theorem Aside.setChunk (aside : Aside s s' handle) : Aside s (s'.setChunk handle chunk) handle :=
  ⟨fun other different => (getElem?_insert.trans (if_neg (Ne.symm different))).trans
    (aside.chunks other different), aside.metas, aside.entries⟩

theorem Aside.setMeta (aside : Aside s s' handle) : Aside s (s'.setMeta handle sums) handle :=
  ⟨aside.chunks, fun other different => (getElem?_insert.trans (if_neg (Ne.symm different))).trans
    (aside.metas other different), aside.entries⟩

theorem Aside.setEntry (aside : Aside s s' handle) : Aside s (s'.setEntry handle entry) handle :=
  ⟨aside.chunks, aside.metas, fun other different =>
    (getElem?_insert.trans (if_neg (Ne.symm different))).trans (aside.entries other different)⟩

theorem Alike.aside (alike : Alike shape crc s t) (aside : Aside s s' handle)
    (aside' : Aside t t' handle) (here : AlikeAt shape crc s' t' handle) : Alike shape crc s' t' := by
  intro other
  by_cases same : other = handle
  · exact same ▸ here
  · cases alike other with
    | closed entry entry' metas lengths =>
        refine .closed ((aside.entries other same).trans entry)
          ((aside'.entries other same).trans entry') ?_ ?_
        · rw [aside.metas other same, aside'.metas other same, metas]
        · rw [aside.chunks other same, aside'.chunks other same, lengths]
    | opened there there' twin =>
        exact .opened ⟨(aside.chunks other same).trans there.chunk,
          (aside.metas other same).trans there.sums, (aside.entries other same).trans there.entry⟩
          ⟨(aside'.chunks other same).trans there'.chunk,
          (aside'.metas other same).trans there'.sums,
          (aside'.entries other same).trans there'.entry⟩ twin

theorem getElem?_setChunk : (s.setChunk handle chunk).chunks[handle]? = some chunk :=
  getElem?_insert.trans (if_pos rfl)

theorem getElem?_setMeta : (s.setMeta handle sums).metas[handle]? = some sums :=
  getElem?_insert.trans (if_pos rfl)

theorem getElem?_setEntry : (s.setEntry handle entry).entries[handle]? = some entry :=
  getElem?_insert.trans (if_pos rfl)

theorem Alike.files (alike : Alike shape crc s t) (closed : s.entries[handle]? = none)
    (length : chunk.length = chunk'.length) :
    Alike shape crc ((s.setChunk handle chunk).setMeta handle sums)
      ((t.setChunk handle chunk').setMeta handle sums) := by
  have closed' : t.entries[handle]? = none := by
    cases alike handle with
    | closed _ entry' => exact entry'
    | opened there =>
        rw [there.entry] at closed
        cases closed
  refine alike.aside Aside.refl.setChunk.setMeta Aside.refl.setChunk.setMeta
    (.closed closed closed' ?_ ?_)
  · exact getElem?_setMeta.trans getElem?_setMeta.symm
  · have here : ∀ {u : Store} {file : Bytes},
        ((u.setChunk handle file).setMeta handle sums).chunks[handle]? = some file :=
      getElem?_setChunk
    rw [here, here, Option.map_some, Option.map_some, length]

theorem contains_congr {α β : Type} {m : Std.ExtTreeMap Handle α} {m' : Std.ExtTreeMap Handle β}
    (same : (m[handle]?).isSome = (m'[handle]?).isSome) : m.contains handle = m'.contains handle := by
  rw [← Std.ExtTreeMap.isSome_getElem?_eq_contains, same, Std.ExtTreeMap.isSome_getElem?_eq_contains]

theorem AlikeAt.lengths (alike : AlikeAt shape crc s t handle) :
    (s.chunks[handle]?).map List.length = (t.chunks[handle]?).map List.length := by
  cases alike with
  | closed _ _ _ lengths => exact lengths
  | opened there there' twin =>
      rw [there.chunk, there'.chunk, Option.map_some, Option.map_some, twin.length]

theorem AlikeAt.metas (alike : AlikeAt shape crc s t handle) :
    s.metas[handle]? = t.metas[handle]? := by
  cases alike with
  | closed _ _ metas => exact metas
  | opened there there' => exact there.sums.trans there'.sums.symm

theorem AlikeAt.entries (alike : AlikeAt shape crc s t handle) :
    s.entries[handle]? = t.entries[handle]? := by
  cases alike with
  | closed entry entry' => exact entry.trans entry'.symm
  | opened there there' => exact there.entry.trans there'.entry.symm

theorem Alike.openNew (alike : Alike shape crc s t) (fault : Fault) (version : UInt64) :
    (s.openNew fault handle version = (none, s) ∧ t.openNew fault handle version = (none, t)) ∨
    ∃ opened sums, (opened = none ∨ opened = some { version }) ∧
      s.openNew fault handle version = (opened, (s.setChunk handle []).setMeta handle sums) ∧
      t.openNew fault handle version = (opened, (t.setChunk handle []).setMeta handle sums) := by
  have chunks : s.chunks.contains handle = t.chunks.contains handle := by
    refine contains_congr ?_
    have lengths := congrArg Option.isSome (alike handle).lengths
    rwa [Option.isSome_map, Option.isSome_map] at lengths
  have metas : s.metas.contains handle = t.metas.contains handle :=
    contains_congr (congrArg Option.isSome (alike handle).metas)
  unfold Store.openNew
  rw [chunks, metas]
  split
  · exact .inl ⟨rfl, rfl⟩
  · split
    · exact .inl ⟨rfl, rfl⟩
    · right
      dsimp only
      split
      · exact ⟨_, _, .inr rfl, rfl, rfl⟩
      · exact ⟨_, _, .inl rfl, rfl, rfl⟩

theorem Alike.create (alike : Alike shape crc s t) (version : UInt64) :
    Alike shape crc (s.create fault handle version).2 (t.create fault handle version).2 := by
  have same : s.entries.contains handle = t.entries.contains handle :=
    contains_congr (congrArg Option.isSome (alike handle).entries)
  unfold Store.create
  rw [same]
  split
  · exact alike
  · rename_i absent
    have closed := Store.getElem?_none_of_contains (same ▸ absent)
    rcases alike.openNew fault version with
      ⟨failed, failed'⟩ | ⟨opened, sums, result, done, done'⟩
    · rw [failed, failed']
      exact alike
    · rw [done, done']
      have files : Alike shape crc ((s.setChunk handle []).setMeta handle sums)
          ((t.setChunk handle []).setMeta handle sums) := alike.files closed rfl
      rcases result with rfl | rfl
      · exact files
      · exact files.aside Aside.refl.setEntry Aside.refl.setEntry
          (.opened ⟨getElem?_setChunk, getElem?_setMeta, getElem?_setEntry⟩
            ⟨getElem?_setChunk, getElem?_setMeta, getElem?_setEntry⟩ .empty)

theorem AlikeAt.twin (alike : AlikeAt shape crc s t handle) (found : s.entries[handle]? = some entry) :
    ∃ chunk chunk' sums, s.At handle chunk sums entry ∧ t.At handle chunk' sums entry ∧
      Twin shape crc entry chunk chunk' := by
  cases alike with
  | closed closed =>
      rw [closed] at found
      cases found
  | opened there there' twin =>
      cases Option.some.inj (found.symm.trans there.entry)
      exact ⟨_, _, _, there, there', twin⟩

theorem Twin.copied (twin : Twin shape crc entry chunk chunk') (version : UInt64) :
    Twin shape crc { version, length := entry.length, checksums := entry.checksums }
      (chunk.take entry.length) (chunk'.take entry.length) := by
  have size := twin.length ▸ twin.size
  refine ⟨?_, ?_, twin.bounded, twin.count, fun b inside => ?_⟩
  · rw [List.length_take, List.length_take, twin.length]
  · rw [List.length_take, Nat.min_eq_left twin.size]
  · rw [Store.Clean, List.take_take, List.take_take, Nat.min_self]
    exact twin.pages b inside

theorem Alike.createCopy (alike : Alike shape crc s t) (version : UInt64) (copyFrom : Handle) :
    Alike shape crc (s.createCopy fault handle version copyFrom).2
      (t.createCopy fault handle version copyFrom).2 := by
  have same : s.entries.contains handle = t.entries.contains handle :=
    contains_congr (congrArg Option.isSome (alike handle).entries)
  cases found : s.entries[copyFrom]? with
  | none =>
      rw [Store.createCopy, Store.createCopy, ← (alike copyFrom).entries, found]
      exact alike
  | some source =>
      obtain ⟨chunk, chunk', sums, there, there', twin⟩ := (alike copyFrom).twin found
      rw [Store.createCopy, Store.createCopy, there.entry, there'.entry]
      dsimp only
      rw [same]
      split
      · exact alike
      · rename_i absent
        have closed := Store.getElem?_none_of_contains (same ▸ absent)
        rw [there.chunkFile, there'.chunkFile]
        rcases alike.openNew fault version with
          ⟨failed, failed'⟩ | ⟨opened, head, result, done, done'⟩
        · rw [failed, failed']
          exact alike
        · rw [done, done']
          obtain ⟨stop, isStop⟩ : ∃ stop, stop =
            ((fault.stops 4).map (min source.length)).getD source.length := ⟨_, rfl⟩
          have short : stop ≤ source.length := by
            rw [isStop]
            cases fault.stops 4 with
            | none => exact Nat.le_refl _
            | some bytes => exact Nat.min_le_left _ _
          have copied : ∀ {file : Bytes}, source.length ≤ file.length →
              Store.copyLoop file stop stop [] 0 = (true, file.take stop) := fun enough =>
            Store.copyLoop_eq stop (short.trans enough) (Nat.le_refl _) (Nat.zero_le _) rfl
          have width : (chunk.take stop).length = (chunk'.take stop).length := by
            rw [List.length_take, List.length_take, twin.length]
          have closed' : t.entries[handle]? = none := (alike handle).entries.symm.trans closed
          rcases result with rfl | rfl
          · exact alike.files closed rfl
          · dsimp only
            rw [← isStop, copied (twin.length ▸ twin.size), copied twin.size]
            dsimp only
            by_cases stopped : (decide (source.length ≠ 0) && (fault.stops 4).isSome) = true
            · rw [stopped, Bool.or_true, if_pos rfl, if_pos rfl]
              refine alike.aside Aside.refl.setChunk.setMeta.setChunk
                Aside.refl.setChunk.setMeta.setChunk (.closed closed closed' ?_ ?_)
              · exact getElem?_setMeta.trans getElem?_setMeta.symm
              · rw [getElem?_setChunk, getElem?_setChunk, Option.map_some, Option.map_some, width]
            · have file : ∀ {u : Store} {target : Bytes}, (((u.setChunk handle []).setMeta handle
                  head).setChunk handle target).metaFile handle = head := by
                intro u target
                exact congrArg (·.getD []) getElem?_setMeta
              have whole : stop = source.length := by
                rw [Bool.and_eq_true, decide_eq_true_eq, not_and] at stopped
                by_cases none : source.length = 0
                · omega
                · rw [isStop, Option.not_isSome_iff_eq_none.mp (stopped none)]
                  rfl
              rw [Bool.not_true, Bool.false_or, if_neg stopped, if_neg stopped, file, file]
              obtain ⟨ok, last⟩ := pwriteAll fault 5 head metaHeaderSize
                (source.checksums.flatMap encodeU32)
              dsimp only
              split
              · refine alike.aside Aside.refl.setChunk.setMeta.setChunk.setMeta
                  Aside.refl.setChunk.setMeta.setChunk.setMeta (.closed closed closed' ?_ ?_)
                · exact getElem?_setMeta.trans getElem?_setMeta.symm
                · have here : ∀ {u : Store} {target : Bytes},
                      ((u.setChunk handle target).setMeta handle last).chunks[handle]? =
                        some target := getElem?_setChunk
                  rw [here, here, Option.map_some, Option.map_some, width]
              · refine alike.aside Aside.refl.setChunk.setMeta.setChunk.setMeta.setEntry
                  Aside.refl.setChunk.setMeta.setChunk.setMeta.setEntry
                  (.opened ⟨getElem?_setChunk, getElem?_setMeta, getElem?_setEntry⟩
                    ⟨getElem?_setChunk, getElem?_setMeta, getElem?_setEntry⟩ ?_)
                rw [whole]
                exact twin.copied version

/-! ## Writing -/

theorem pwriteAll_eq {call offset : Nat} {file data : Bytes} :
    pwriteAll fault call file offset data = (data.isEmpty || (fault.stops call).isNone,
      if data.take ((fault.stops call).getD data.length) = [] then file
      else overlay 0 file offset (data.take ((fault.stops call).getD data.length))) := by
  unfold pwriteAll
  split
  · rename_i empty
    simp [empty]
  · rename_i filled
    rw [List.isEmpty_eq_false_iff.mpr filled]
    cases fault.stops call with
    | some bytes => rfl
    | none =>
        rw [Option.getD_none, List.take_length, if_neg filled]
        rfl

theorem length_put {file file' part : Bytes} {offset : Nat} (same : file.length = file'.length) :
    (if part = [] then file else overlay 0 file offset part).length =
      (if part = [] then file' else overlay 0 file' offset part).length := by
  split
  · exact same
  · rename_i some
    rw [length_overlay some, length_overlay some, same]

theorem getD_put {file part : Bytes} {offset p : Nat} :
    (if part = [] then file else overlay 0 file offset part).getD p 0 =
      if offset ≤ p ∧ p < offset + part.length then part.getD (p - offset) 0 else file.getD p 0 := by
  split
  · rename_i none
    rw [none, List.length_nil, if_neg (by omega)]
  · exact getD_overlay

theorem agree_iff {start size from_ upTo : Nat} :
    Twins.agree chunk chunk' start size from_ upTo = true ↔ ∀ p < size, start ≤ p →
      ¬(from_ ≤ p ∧ p < upTo) → chunk.getD p 0 = chunk'.getD p 0 := by
  rw [Twins.agree, List.all_eq_true]
  refine forall_congr' fun p => ?_
  rw [List.mem_range]
  refine imp_congr_right fun _ => ?_
  simp only [Bool.or_eq_true, Bool.and_eq_true, decide_eq_true_eq]
  grind

theorem Alike.rewrite (alike : Alike shape crc s t) (there : s.At handle chunk sums entry)
    (there' : t.At handle chunk' sums entry) (twin : Twin shape crc entry new new') :
    Alike shape crc (s.setChunk handle new) (t.setChunk handle new') :=
  alike.aside Aside.refl.setChunk Aside.refl.setChunk (.opened ⟨getElem?_setChunk, there.sums,
    there.entry⟩ ⟨getElem?_setChunk, there'.sums, there'.entry⟩ twin)

theorem Alike.finish (alike : Alike shape crc s t) (there : s.At handle chunk sums entry)
    (there' : t.At handle chunk' sums entry) (twin : Twin shape crc entry chunk chunk')
    {length first last : Nat} (width : new.length = new'.length) (size : length ≤ new'.length)
    (bounded : length ≤ 2 ^ 63) (before : first * shape.blockSize ≤ entry.length)
    (before' : first * shape.blockSize ≤ length)
    (same : ∀ p < first * shape.blockSize, new.getD p 0 = chunk.getD p 0)
    (same' : ∀ p < first * shape.blockSize, new'.getD p 0 = chunk'.getD p 0)
    (agree : ∀ p, first * shape.blockSize ≤ p → p < length → new.getD p 0 = new'.getD p 0) :
    Alike shape crc
      ((s.setChunk handle new).finish shape crc fault handle { entry with length } first last).2
      ((t.setChunk handle new').finish shape crc fault handle { entry with length } first last).2 := by
  have chunkFile : ∀ {u : Store} {file : Bytes}, (u.setChunk handle file).chunkFile handle = file := by
    intro u file
    exact congrArg (·.getD []) getElem?_setChunk
  have metaFile : ∀ {u : Store} {file old : Bytes} {e : Entry}, u.At handle old sums e →
      (u.setChunk handle file).metaFile handle = sums := fun there => there.metaFile
  have recomputed : Store.recomputeBlocks shape crc fault 1 new sums { entry with length } first last =
      Store.recomputeBlocks shape crc fault 1 new' sums { entry with length } first last :=
    Store.recomputeBlocks_congr width agree
  unfold Store.finish
  rw [chunkFile, chunkFile, metaFile there, metaFile there', recomputed]
  rcases computed : Store.recomputeBlocks shape crc fault 1 new' sums { entry with length } first last
    with ⟨ok, changed, sums'⟩
  obtain ⟨length', count, kept⟩ := Store.recomputeBlocks_kept computed
  have length' : changed.length = length := length'
  refine alike.aside Aside.refl.setChunk.setEntry.setMeta Aside.refl.setChunk.setEntry.setMeta
    (.opened ⟨getElem?_setChunk, getElem?_setMeta, getElem?_setEntry⟩
      ⟨getElem?_setChunk, getElem?_setMeta, getElem?_setEntry⟩ ?_)
  refine twin.edit width (length' ▸ size) (length' ▸ bounded) ?_ before (length' ▸ before') kept same
    same' fun p above below => agree p above (length'.symm ▸ below)
  rw [count]
  exact max_le twin.count Store.needed_le

theorem Alike.write (alike : Alike shape crc s t) {offset : Nat} {data : Bytes}
    (untainted : Twins.untainted shape crc ⟨s, t⟩ (.call (.write handle offset data) fault) = true) :
    Alike shape crc (s.write shape crc fault handle offset data).2
      (t.write shape crc fault handle offset data).2 := by
  cases found : s.entries[handle]? with
  | none =>
      rw [Store.write, Store.write, ← (alike handle).entries, found]
      exact alike
  | some entry =>
      obtain ⟨chunk, chunk', sums, there, there', twin⟩ := (alike handle).twin found
      rw [Store.write, Store.write, there.entry, there'.entry]
      dsimp only
      split
      · exact alike
      rename_i inside
      split
      · exact alike
      rename_i filled
      split
      · exact alike
      rename_i small
      have small := Nat.lt_of_not_le small
      have wrap : u64 (offset + data.length) = offset + data.length := u64_of_lt (by omega)
      obtain ⟨part, isPart⟩ : ∃ part, part = data.take ((fault.stops 0).getD data.length) := ⟨_, rfl⟩
      obtain ⟨first, isFirst⟩ : ∃ first, first = min offset entry.length / shape.blockSize :=
        ⟨_, rfl⟩
      have least : first * shape.blockSize ≤ min offset entry.length :=
        isFirst ▸ Nat.div_mul_le_self _ _
      simp only [Twins.untainted, there'.entry, Bool.or_eq_true, decide_eq_true_eq,
        List.isEmpty_iff, inside, filled, Nat.not_le.mpr small, false_or] at untainted
      rw [there.chunkFile, there'.chunkFile, ← isPart, ← isFirst, agree_iff] at untainted
      rw [pwriteAll_eq, pwriteAll_eq, there.chunkFile, there'.chunkFile, ← isPart, wrap, ← isFirst]
      have width : (if part = [] then chunk else overlay 0 chunk offset part).length =
          (if part = [] then chunk' else overlay 0 chunk' offset part).length :=
        length_put twin.length
      have before : ∀ {file : Bytes}, ∀ p < first * shape.blockSize,
          (if part = [] then file else overlay 0 file offset part).getD p 0 = file.getD p 0 := by
        intro file p early
        rw [getD_put, if_neg (by omega)]
      have after : ∀ p, first * shape.blockSize ≤ p → p < max entry.length (offset + data.length) →
          (if part = [] then chunk else overlay 0 chunk offset part).getD p 0 =
            (if part = [] then chunk' else overlay 0 chunk' offset part).getD p 0 := by
        intro p above below
        rw [getD_put, getD_put]
        split
        · rfl
        · exact untainted p below above ‹_›
      dsimp only
      split
      · refine alike.rewrite there there' (twin.edit width ?_ twin.bounded twin.count
          (least.trans (Nat.min_le_right _ _)) (least.trans (Nat.min_le_right _ _))
          (fun _ _ _ => id) before before fun p above below => after p above (by omega))
        split
        · exact twin.size
        · rw [length_overlay ‹_›]
          exact twin.size.trans (Nat.le_max_left _ _)
      · rename_i ok
        have quiet : fault.stops 0 = none := by simpa [filled] using ok
        have whole : part = data := by
          rw [isPart, quiet, Option.getD_none, List.take_length]
        refine alike.finish there there' twin width ?_ ?_ (least.trans (Nat.min_le_right _ _)) ?_
          before before after
        · rw [whole, if_neg filled, length_overlay filled]
          exact max_le_max_right _ twin.size
        · exact max_le twin.bounded (by omega)
        · exact (least.trans (Nat.min_le_right _ _)).trans (Nat.le_max_left _ _)

theorem zeroLoop_put {file : Bytes} {start stop : Nat} :
    Store.zeroLoop stop (stop - start) file start =
      if List.replicate (stop - start) (0 : UInt8) = [] then file
      else overlay 0 file start (List.replicate (stop - start) 0) := by
  rcases Nat.lt_or_ge start stop with some | none
  · rw [Store.zeroLoop_eq _ some (Nat.le_refl _), if_neg]
    rw [List.replicate_eq_nil_iff]
    omega
  · rw [Nat.sub_eq_zero_of_le none, if_pos (List.replicate_zero ..)]
    rfl

theorem Alike.pad (alike : Alike shape crc s t) {fromOffset : Nat}
    (untainted : Twins.untainted shape crc ⟨s, t⟩ (.call (.pad handle fromOffset) fault) = true) :
    Alike shape crc (s.pad shape crc fault handle fromOffset).2
      (t.pad shape crc fault handle fromOffset).2 := by
  cases found : s.entries[handle]? with
  | none =>
      rw [Store.pad, Store.pad, ← (alike handle).entries, found]
      exact alike
  | some entry =>
      obtain ⟨chunk, chunk', sums, there, there', twin⟩ := (alike handle).twin found
      rw [Store.pad, Store.pad, there.entry, there'.entry]
      dsimp only
      split
      · exact alike
      rename_i inside
      obtain ⟨first, isFirst⟩ : ∃ first, first = min fromOffset entry.length / shape.blockSize :=
        ⟨_, rfl⟩
      have least : first * shape.blockSize ≤ min fromOffset entry.length :=
        isFirst ▸ Nat.div_mul_le_self _ _
      simp only [Twins.untainted, there'.entry, Bool.or_eq_true, decide_eq_true_eq, inside,
        false_or] at untainted
      rw [there.chunkFile, there'.chunkFile, ← isFirst, agree_iff] at untainted
      rw [there.chunkFile, there'.chunkFile, ← isFirst]
      have stops : ((fault.stops 0).map fun bytes => min shape.chunkSize (fromOffset + bytes)).getD
          (min shape.chunkSize (2 ^ 63)) = Twins.zeroed shape fault fromOffset := rfl
      obtain ⟨ok, isOk⟩ : ∃ ok, ok = ((fault.stops 0).isNone && decide (shape.chunkSize < 2 ^ 63)) :=
        ⟨_, rfl⟩
      have small : ok = true → shape.chunkSize < 2 ^ 63 ∧
          Twins.zeroed shape fault fromOffset = shape.chunkSize := by
        intro done
        rw [isOk, Bool.and_eq_true, decide_eq_true_eq, Option.isNone_iff_eq_none] at done
        refine ⟨done.2, ?_⟩
        rw [Twins.zeroed, done.1]
        exact Nat.min_eq_left done.2.le
      rw [stops, ← isOk]
      by_cases behind : entry.length ≤ fromOffset
      · rw [if_pos behind, if_pos behind]
        rw [if_pos behind] at untainted
        cases ok with
        | false => exact alike.rewrite there there' twin
        | true =>
            refine alike.finish there there' twin ?_ length_resize.ge (small rfl).1.le
              (least.trans (Nat.min_le_right _ _)) (by omega) (fun p early => ?_)
              (fun p early => ?_) fun p above below => ?_
            · exact length_resize.trans length_resize.symm
            · exact getD_resize.trans (if_pos (by omega))
            · exact getD_resize.trans (if_pos (by omega))
            · refine (getD_resize.trans (if_pos below)).trans (Eq.trans ?_
                (getD_resize.trans (if_pos below)).symm)
              exact untainted p (below.trans_le (Nat.le_max_right _ _)) above (by omega)
      · rw [if_neg behind, if_neg behind, zeroLoop_put, zeroLoop_put]
        rw [if_neg behind] at untainted
        obtain ⟨zeros, isZeros⟩ : ∃ zeros, zeros =
          List.replicate (Twins.zeroed shape fault fromOffset - fromOffset) (0 : UInt8) := ⟨_, rfl⟩
        have span : zeros.length = Twins.zeroed shape fault fromOffset - fromOffset := by
          rw [isZeros, List.length_replicate]
        rw [← isZeros]
        have width : (if zeros = [] then chunk else overlay 0 chunk fromOffset zeros).length =
            (if zeros = [] then chunk' else overlay 0 chunk' fromOffset zeros).length :=
          length_put twin.length
        have before : ∀ {file : Bytes}, ∀ p < first * shape.blockSize,
            (if zeros = [] then file else overlay 0 file fromOffset zeros).getD p 0 =
              file.getD p 0 := by
          intro file p early
          rw [getD_put, if_neg (by omega)]
        have after : ∀ p, first * shape.blockSize ≤ p → p < max entry.length shape.chunkSize →
            (if zeros = [] then chunk else overlay 0 chunk fromOffset zeros).getD p 0 =
              (if zeros = [] then chunk' else overlay 0 chunk' fromOffset zeros).getD p 0 := by
          intro p above below
          rw [getD_put, getD_put]
          split
          · rfl
          · exact untainted p below above (by omega)
        have size : entry.length ≤
            (if zeros = [] then chunk' else overlay 0 chunk' fromOffset zeros).length := by
          split
          · exact twin.size
          · rw [length_overlay ‹_›]
            exact twin.size.trans (Nat.le_max_left _ _)
        have least' := least.trans (Nat.min_le_right _ _)
        cases ok with
        | false =>
            exact alike.rewrite there there' (twin.edit width size twin.bounded twin.count least' least'
              (fun _ _ _ => id) before before fun p above below =>
                after p above (below.trans_le (Nat.le_max_left _ _)))
        | true =>
            obtain ⟨small, whole⟩ := small rfl
            refine alike.finish there there' twin width ?_ small.le least' (by omega) before before
              fun p above below => after p above (below.trans_le (Nat.le_max_right _ _))
            rw [whole] at span
            have enough := twin.size
            split
            · rename_i none
              rw [none, List.length_nil] at span
              omega
            · rw [length_overlay ‹_›, span]
              omega

/-! ## The other operations -/

theorem Alike.setVersion (alike : Alike shape crc s t) (version : UInt64) :
    Alike shape crc (s.setVersion fault handle version).2 (t.setVersion fault handle version).2 := by
  cases found : s.entries[handle]? with
  | none =>
      rw [Store.setVersion, Store.setVersion, ← (alike handle).entries, found]
      exact alike
  | some entry =>
      obtain ⟨chunk, chunk', sums, there, there', twin⟩ := (alike handle).twin found
      rw [Store.setVersion, Store.setVersion, there.entry, there'.entry]
      dsimp only
      split
      · exact alike
      · rw [there.metaFile, there'.metaFile]
        obtain ⟨ok, file⟩ := pwriteAll fault 0 sums 0 (encodeU64 version)
        dsimp only
        split
        · exact alike.aside Aside.refl.setMeta.setEntry Aside.refl.setMeta.setEntry
            (.opened ⟨there.chunk, getElem?_setMeta, getElem?_setEntry⟩
              ⟨there'.chunk, getElem?_setMeta, getElem?_setEntry⟩ (twin.congr rfl rfl))
        · exact alike.aside Aside.refl.setMeta Aside.refl.setMeta
            (.opened ⟨there.chunk, getElem?_setMeta, there.entry⟩
              ⟨there'.chunk, getElem?_setMeta, there'.entry⟩ twin)

theorem Alike.remove (alike : Alike shape crc s t) :
    Alike shape crc (s.remove handle).2 (t.remove handle).2 := by
  have same : s.entries.contains handle = t.entries.contains handle :=
    contains_congr (congrArg Option.isSome (alike handle).entries)
  have gone : ∀ {α : Type} {m : Std.ExtTreeMap Handle α}, (m.erase handle)[handle]? = none :=
    getElem?_erase.trans (if_pos rfl)
  have apart : ∀ {α : Type} (m : Std.ExtTreeMap Handle α) other, other ≠ handle →
      (m.erase handle)[other]? = m[other]? :=
    fun m other different => getElem?_erase.trans (if_neg (Ne.symm different))
  unfold Store.remove
  rw [same]
  split
  · exact alike.aside ⟨apart _, apart _, apart _⟩ ⟨apart _, apart _, apart _⟩
      (.closed gone gone (gone.trans gone.symm)
        ((congrArg _ gone).trans (congrArg _ gone).symm))
  · exact alike

theorem Alike.read (alike : Alike shape crc s t) {offset length : Nat} :
    Alike shape crc (s.read shape crc fault handle offset length).2
      (t.read shape crc fault handle offset length).2 := by
  intro other
  have state : ∀ {u : Store}, (u.read shape crc fault handle offset length).2.toDirectory =
      u.toDirectory ∧ (u.read shape crc fault handle offset length).2.entries = u.entries :=
    Store.read_state
  cases alike other with
  | closed entry entry' metas lengths =>
      refine .closed ?_ ?_ ?_ ?_
      · rw [state.2, entry]
      · rw [state.2, entry']
      · rw [state.1, state.1, metas]
      · rw [state.1, state.1, lengths]
  | opened there there' twin =>
      have still : ∀ {u : Store} {file last : Bytes} {e : Entry}, u.At other file last e →
          (u.read shape crc fault handle offset length).2.At other file last e := fun there =>
        ⟨by rw [state.1, there.chunk], by rw [state.1, there.sums], by rw [state.2, there.entry]⟩
      exact .opened (still there) (still there') twin

theorem Alike.damage (alike : Alike shape crc s t) {position : Nat} {byte : UInt8}
    (untainted : Twins.untainted shape crc ⟨s, t⟩ (.damage handle position byte) = true)
    (inside : position < (s.chunkFile handle).length) :
    Alike shape crc (s.setChunk handle ((s.chunkFile handle).set position byte)) t := by
  have width : ((s.chunkFile handle).set position byte).length = (s.chunkFile handle).length :=
    List.length_set
  refine alike.aside Aside.refl.setChunk Aside.refl ?_
  cases here : alike handle with
  | closed entry entry' metas lengths =>
      refine .closed entry entry' metas ?_
      rw [getElem?_setChunk, ← lengths, Option.map_some, width, Store.chunkFile]
      cases found : s.chunks[handle]? with
      | none =>
          rw [Store.chunkFile, found] at inside
          exact absurd inside (Nat.not_lt_zero _)
      | some file => rfl
  | @opened chunk chunk' sums entry there there' twin =>
      rw [there.chunkFile] at width ⊢
      refine .opened ⟨getElem?_setChunk, there.sums, there.entry⟩ there'
        ⟨width.trans twin.length, twin.size, twin.bounded, twin.count, fun b below => ?_⟩
      simp only [Twins.untainted, there'.entry, there'.chunkFile, Bool.or_eq_true,
        decide_eq_true_eq] at untainted
      by_cases touched : position < entry.length ∧ b = position / shape.blockSize
      · exact .inr (touched.2 ▸ untainted.resolve_left (Nat.not_le.mpr touched.1))
      · have unchanged : page shape.blockSize ((chunk.set position byte).take entry.length) b =
            page shape.blockSize (chunk.take entry.length) b := by
          refine page_congr 0 (by rw [List.length_take, List.length_take, width])
            fun p above upTo => ?_
          rw [getD_take, getD_take]
          split
          · rename_i early
            have apart : position ≠ p := by
              rintro rfl
              refine touched ⟨early, ?_⟩
              exact (Nat.div_eq_of_lt_le above upTo).symm
            rw [List.getD_eq_getElem?_getD, List.getElem?_set_ne apart,
              List.getD_eq_getElem?_getD]
          · rfl
        rw [unchanged]
        exact twin.pages b below

theorem Alike.after (alike : Alike shape crc s t) {call : Call}
    (untainted : Twins.untainted shape crc ⟨s, t⟩ (.call call fault) = true) :
    Alike shape crc (s.after shape crc fault call) (t.after shape crc fault call) := by
  cases call with
  | create handle version => exact alike.create version
  | createCopy handle version copyFrom => exact alike.createCopy version copyFrom
  | write => exact alike.write untainted
  | pad => exact alike.pad untainted
  | setVersion handle version => exact alike.setVersion version
  | remove => exact alike.remove
  | read => exact alike.read

namespace Twins

theorem alike_initial {t : Twins} (initial : Initial shape t) : Alike shape crc t.store t.intact := by
  obtain ⟨directory, files, rfl⟩ := initial
  intro handle
  cases found : (Store.scan shape directory).entries[handle]? with
  | none => exact .closed found found rfl rfl
  | some entry =>
      have opened := Store.scan_entries.symm.trans found
      obtain ⟨chunk, sums, inChunks, inMetas⟩ := Store.openEntry_some opened
      have there : (Store.scan shape directory).At handle chunk sums entry :=
        ⟨inChunks, (Store.scan_metas inChunks).trans inMetas, found⟩
      rw [Store.openEntry, inChunks, inMetas] at opened
      dsimp only at opened
      split at opened
      · cases opened
      · cases opened
        refine .opened there there ⟨rfl, Nat.le_refl _, files handle chunk inChunks, ?_,
          fun _ _ => .inl rfl⟩
        dsimp only
        rw [List.length_map, List.length_range]
        exact (Nat.min_le_right _ _).trans Store.needed_le

/-- No read returns a byte that was not written, and every read that covers an altered byte fails. -/
theorem unlaundered_of_untainted {t : Twins} (reachable : Reachable (step shape crc) (Initial shape)
      (fun t event => untainted shape crc t event = true) t) (distinct : Distinct shape crc t) :
    (∀ handle offset length fault out,
      (t.store.read shape crc fault handle offset length).1 = some (.ok, out) →
      ∀ i < out.length, out.getD i 0 = (t.intact.chunkFile handle).getD (offset + i) 0) ∧
    ∀ handle entry position, t.store.entries[handle]? = some entry → position < entry.length →
      (t.store.chunkFile handle).getD position 0 ≠ (t.intact.chunkFile handle).getD position 0 →
      ∀ offset length, offset ≤ position → position < offset + length → offset + length < 2 ^ 64 →
        (t.store.read shape crc none handle offset length).1 = some (.checksumMismatch, []) := by
  have alike : Alike shape crc t.store t.intact := by
    refine reachable.invariant (fun _ => alike_initial) fun t event t' alike allowed taken => ?_
    cases event with
    | call call fault =>
        cases taken
        exact alike.after allowed
    | damage handle position byte =>
        simp only [step] at taken
        split at taken
        · cases taken
          exact alike.damage allowed ‹_›
        · cases taken
  -- a block that has its checksum is as it was written
  have written : ∀ {handle chunk chunk' sums entry p}, t.store.At handle chunk sums entry →
      t.intact.At handle chunk' sums entry → Twin shape crc entry chunk chunk' → p < entry.length →
      Store.Clean shape crc chunk entry (p / shape.blockSize) → chunk.getD p 0 = chunk'.getD p 0 := by
    intro handle chunk chunk' sums entry p there there' twin below clean
    have least := Nat.div_mul_le_self p shape.blockSize
    have same : page shape.blockSize (chunk.take entry.length) (p / shape.blockSize) =
        page shape.blockSize (chunk'.take entry.length) (p / shape.blockSize) := by
      rcases twin.pages _ (least.trans_lt below) with equal | right
      · exact equal
      · have member : (handle, entry) ∈ t.store.entries.toList :=
          Std.ExtTreeMap.mem_toList_iff_getElem?_eq_some.mpr there.entry
        have known := distinct _ member (p / shape.blockSize)
          (List.mem_range.mpr (Nat.lt_succ_of_le (Nat.div_le_div_right below.le)))
        rw [there.chunkFile, there'.chunkFile] at known
        exact known (Option.some.inj (clean.symm.trans right))
    have byte := page_eq 0 same least
      (by rw [Nat.mul_comm]; exact Nat.lt_mul_div_succ p shape.positive)
    rwa [getD_take, getD_take, if_pos below, if_pos below] at byte
  refine ⟨fun handle offset length fault out ok i inside => ?_,
    fun handle entry position found below altered offset length above upTo short => ?_⟩
  · cases found : t.store.entries[handle]? with
    | none =>
        rw [Store.read, found] at ok
        cases ok
    | some entry =>
        obtain ⟨chunk, chunk', sums, there, there', twin⟩ := (alike handle).twin found
        obtain ⟨below, clean, byte⟩ := Store.read_ok there (twin.length ▸ twin.size) twin.bounded
          twin.count ok inside
        rw [byte, there'.chunkFile]
        exact written there there' twin below clean
  · obtain ⟨chunk, chunk', sums, there, there', twin⟩ := (alike handle).twin found
    rw [there.chunkFile, there'.chunkFile] at altered
    have bounded := twin.bounded
    refine congrArg Prod.fst (Store.read_dirty there (twin.length ▸ twin.size)
      (fun b => Store.rounds_of_file bounded) (by omega) short (by omega)
      (Nat.div_le_div_right above) (Nat.div_le_div_right (by omega))
      fun clean => altered (written there there' twin below clean))

open Store in
/-- A write to the second byte of a block gives the damaged first byte a new checksum. -/
theorem unlaundered_fails : ∃ t, Reachable (step quarters crc32) (Initial quarters)
      (fun _ _ => True) t ∧ Distinct quarters crc32 t ∧
    ([[97, 98, 99, 100], [120, 98, 99, 100], [120, 90, 99, 100], [97, 90, 99, 100]] :
      List Bytes).Pairwise (fun block other => crc32 block ≠ crc32 other) ∧
    (t.store.read quarters crc32 none 1 0 1).1 = some (.ok, [120]) ∧
    (t.intact.chunkFile 1).getD 0 0 = 97 := by
  have initial : Initial quarters ⟨scan quarters {}, scan quarters {}⟩ := by
    refine ⟨{}, fun handle chunk found => ?_, rfl⟩
    rw [Std.ExtTreeMap.getElem?_empty] at found
    cases found
  have ran : run (step quarters crc32) ⟨scan quarters {}, scan quarters {}⟩
      [.call (.create 1 1) none, .call (.write 1 0 [97, 98, 99, 100]) none, .damage 1 0 120,
        .call (.write 1 1 [90]) none] = some _ := rfl
  exact ⟨_, reachable_run_true initial ran, by decide +kernel, by decide +kernel,
    by decide +kernel, by decide +kernel⟩

open Store in
theorem unlaundered_of_untainted_run : ∃ t,
    run (step quarters crc32) ⟨scan quarters {}, scan quarters {}⟩
      [.call (.create 1 1) none, .call (.write 1 0 [1, 2, 3, 4, 5, 6, 7, 8]) none, .damage 1 1 0,
        .call (.write 1 4 [9, 9, 9]) (some (1, 0)), .call (.createCopy 2 5 1) none,
        .call (.pad 1 8) none] = some t ∧
    (∀ handle offset length fault out,
      (t.store.read quarters crc32 fault handle offset length).1 = some (.ok, out) →
      ∀ i < out.length, out.getD i 0 = (t.intact.chunkFile handle).getD (offset + i) 0) ∧
    ∀ handle entry position, t.store.entries[handle]? = some entry → position < entry.length →
      (t.store.chunkFile handle).getD position 0 ≠ (t.intact.chunkFile handle).getD position 0 →
      ∀ offset length, offset ≤ position → position < offset + length → offset + length < 2 ^ 64 →
        (t.store.read quarters crc32 none handle offset length).1 =
          some (.checksumMismatch, []) := by
  have initial : Initial quarters ⟨scan quarters {}, scan quarters {}⟩ := by
    refine ⟨{}, fun handle chunk found => ?_, rfl⟩
    rw [Std.ExtTreeMap.getElem?_empty] at found
    cases found
  have ran : run (step quarters crc32) ⟨scan quarters {}, scan quarters {}⟩
      [.call (.create 1 1) none, .call (.write 1 0 [1, 2, 3, 4, 5, 6, 7, 8]) none, .damage 1 1 0,
        .call (.write 1 4 [9, 9, 9]) (some (1, 0)), .call (.createCopy 2 5 1) none,
        .call (.pad 1 8) none] = some _ := rfl
  exact ⟨_, ran, unlaundered_of_untainted (reachable_run initial (by decide +kernel) ran)
    (by decide +kernel)⟩

end Twins

end

end Gfs.Chunkserver.Disk
