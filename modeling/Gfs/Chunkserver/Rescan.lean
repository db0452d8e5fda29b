import Gfs.Chunkserver.Reads
import Gfs.Lib.Transition

/-!
# A restart of the chunk store

The meta file has the checksums of memory as far as `Scan` loads them, with a hole where memory has
zeros. Two calls can make memory say more than the files. `Pad` of a chunk whose file is longer than
the chunk size cuts the length in memory only, and `Pad` at the very end of a full chunk fills the
checksums that are missing with zeros in memory only, which are right for a block whose checksum is 0.
-/

namespace Gfs.Chunkserver.Disk
open Lib.Maps Lib.Overlay Lib.Transition

namespace Store

/-- How many checksums `Scan` loads. -/
def loaded (shape : Shape) (sums : Bytes) (length : Nat) : Nat :=
  min ((sums.length - metaHeaderSize) / 4) (needed shape length)

structure Mirrored (shape : Shape) (crc : Bytes → UInt32) (chunk sums : Bytes) (entry : Entry) :
    Prop where
  length : chunk.length = entry.length
  version : decodeU64 sums = entry.version
  whole : ∃ k, sums.length = 8 + 4 * k
  known : ∀ b, b * shape.blockSize < entry.length → b < loaded shape sums entry.length →
    entry.checksums[b]? = some (sumAt sums b)
  short : ∀ b, b * shape.blockSize < entry.length → loaded shape sums entry.length ≤ b →
    ∀ c, entry.checksums[b]? = some c →
      c = 0 ∧ crc (page shape.blockSize chunk b) ≠ 0 ∧ entry.length + shape.blockSize ≤ 2 ^ 64

structure Rescans (shape : Shape) (crc : Bytes → UInt32) (s : Store) : Prop where
  files : ∀ (handle : Handle) entry, s.entries[handle]? = some entry →
    ∃ chunk sums, s.At handle chunk sums entry ∧ Mirrored shape crc chunk sums entry
  complete : ∀ (handle : Handle) chunk sums, s.chunks[handle]? = some chunk →
    s.metas[handle]? = some sums → ∃ entry, s.entries[handle]? = some entry

/-- The store has the checksums that a `Pad` at the end of a full chunk would fill with zeros, or they
are not 0. -/
def padsKnown (shape : Shape) (crc : Bytes → UInt32) (s : Store) : Call → Bool
  | .pad handle fromOffset =>
      match s.entries[handle]? with
      | some entry =>
          !(fromOffset = shape.chunkSize && entry.length = shape.chunkSize &&
            shape.chunkSize % shape.blockSize = 0) ||
          (List.range (needed shape entry.length)).all fun b =>
            b < entry.checksums.length || crc (page shape.blockSize (s.chunkFile handle) b) ≠ 0
      | none => true
  | _ => true

def step (shape : Shape) (crc : Bytes → UInt32) (s : Store) (request : Call × Fault) :
    Option Store :=
  some (s.after shape crc request.2 request.1)

/-- A store that has scanned a directory whose meta files are whole. -/
def Scanned (shape : Shape) (s : Store) : Prop :=
  ∃ directory : Directory, (∀ (handle : Handle) sums, directory.metas[handle]? = some sums →
    ∃ k, sums.length = 8 + 4 * k) ∧ s = scan shape directory

section
variable {shape : Shape} {crc : Bytes → UInt32} {s s' : Store} {handle : Handle}
  {chunk chunk' sums sums' : Bytes} {entry entry' : Entry} {call : Call}

/-! ## The files of one chunk -/

theorem Mirrored.created {version : UInt64} :
    Mirrored shape crc [] (encodeU64 version) { version } := by
  refine ⟨rfl, decodeU64_encodeU64 version, ⟨0, rfl⟩, fun b below => ?_, fun b below => ?_⟩
  · exact absurd below (Nat.not_lt_zero _)
  · exact absurd below (Nat.not_lt_zero _)

theorem Mirrored.copied (mirrored : Mirrored shape crc chunk sums entry) {version : UInt64} :
    Mirrored shape crc chunk (encodeU64 version ++ entry.checksums.flatMap encodeU32)
      { version, length := entry.length, checksums := entry.checksums } := by
  have appended : encodeU64 version ++ entry.checksums.flatMap encodeU32 =
      overlay 0 (encodeU64 version) (8 + 4 * 0) (entry.checksums.flatMap encodeU32) :=
    overlay_end.symm
  have width : (encodeU64 version ++ entry.checksums.flatMap encodeU32).length =
      8 + 4 * entry.checksums.length := by
    rw [List.length_append, length_flatMap_width length_encodeU32, length_encodeU64]
  have least : loaded shape (encodeU64 version ++ entry.checksums.flatMap encodeU32) entry.length =
      min entry.checksums.length (needed shape entry.length) := by
    rw [loaded, width, metaHeaderSize]
    omega
  refine ⟨mirrored.length, ?_, ⟨_, width⟩, fun b below inside => ?_,
    fun b below outside c found => ?_⟩
  · rw [appended, decodeU64_overlay, decodeU64_encodeU64]
  · rw [least] at inside
    have there : b < entry.checksums.length := by omega
    rw [appended, sumAt_overlay, if_pos (Nat.zero_le b), Nat.sub_zero,
      List.getElem?_eq_getElem there]
    rfl
  · rw [least] at outside
    have there : b < entry.checksums.length := (List.getElem?_eq_some_iff.mp found).1
    refine mirrored.short b below ?_ c found
    rw [loaded]
    omega

theorem Mirrored.recomputed (mirrored : Mirrored shape crc chunk sums entry) {length first : Nat}
    (length' : chunk'.length = length) (grown : entry.length ≤ length)
    (rounds : length + shape.blockSize ≤ 2 ^ 64) (before : first * shape.blockSize ≤ entry.length)
    (recomputed : Recomputed shape crc chunk' sums { entry with length } first entry' sums') :
    Mirrored shape crc chunk' sums' entry' := by
  obtain ⟨k, whole⟩ := mirrored.whole
  obtain ⟨k', whole', enough⟩ := recomputed.whole k whole
  have size : entry'.length = length := recomputed.length
  have all : ∀ b, b * shape.blockSize < entry'.length → b < loaded shape sums' entry'.length := by
    intro b below
    rw [size] at below ⊢
    have needs := (lt_needed (b := b) rounds).mpr below
    have has := enough b below
    rw [loaded, whole', metaHeaderSize]
    omega
  refine ⟨length'.trans size.symm, ?_, ⟨k', whole'⟩, fun b below _ => ?_, fun b below outside => ?_⟩
  · rw [recomputed.header, recomputed.version]
    exact mirrored.version
  · rw [size] at below
    by_cases later : first ≤ b
    · rw [recomputed.fresh b later below, recomputed.sumFresh b later below]
    · have early := Nat.lt_of_not_le later
      rw [recomputed.kept b early, recomputed.sumKept b early]
      have inside : b * shape.blockSize < entry.length := by
        have next : (b + 1) * shape.blockSize ≤ first * shape.blockSize :=
          Nat.mul_le_mul_right _ early
        have positive := shape.positive
        rw [Nat.add_one_mul] at next
        omega
      congr 1
      show entry.checksums.getD b 0 = sumAt sums b
      rw [List.getD_eq_getElem?_getD]
      by_cases there : b < loaded shape sums entry.length
      · rw [mirrored.known b inside there, Option.getD_some]
      · have absent : sumAt sums b = 0 := by
          have needs := (lt_needed (b := b)
            (Nat.le_trans (Nat.add_le_add_right grown _) rounds)).mpr inside
          refine sumAt_beyond ?_
          rw [loaded, whole, metaHeaderSize] at there
          omega
        rw [absent]
        cases found : entry.checksums[b]? with
        | none => rfl
        | some c => exact (mirrored.short b inside (Nat.le_of_not_lt there) c found).1
  · exact absurd (all b below) (Nat.not_lt.mpr outside)

theorem Mirrored.filled (mirrored : Mirrored shape crc chunk sums entry)
    (rounds : entry.length + shape.blockSize ≤ 2 ^ 64)
    (known : ∀ b < needed shape entry.length, entry.checksums.length ≤ b →
      crc (page shape.blockSize chunk b) ≠ 0) :
    Mirrored shape crc chunk sums { entry with
      checksums := (entry.checksums ++
        List.replicate (needed shape entry.length - entry.checksums.length) 0) } := by
  refine ⟨mirrored.length, mirrored.version, mirrored.whole, fun b below inside => ?_,
    fun b below outside c found => ?_⟩
  · have there := mirrored.known b below inside
    rw [List.getElem?_append_left (List.getElem?_eq_some_iff.mp there).1]
    exact there
  · have needs := (lt_needed (b := b) rounds).mpr below
    rw [getElem?_resized needs] at found
    by_cases there : b < entry.checksums.length
    · refine mirrored.short b below outside c ?_
      rw [← found, List.getElem?_eq_getElem there, List.getD_eq_getElem _ _ there]
    · have beyond := Nat.le_of_not_lt there
      rw [getD_beyond beyond] at found
      exact ⟨(Option.some.inj found).symm, known b needs beyond, rounds⟩

theorem Mirrored.versioned (mirrored : Mirrored shape crc chunk sums entry) {version : UInt64} :
    Mirrored shape crc chunk (overlay 0 sums 0 (encodeU64 version)) { entry with version } := by
  obtain ⟨k, whole⟩ := mirrored.whole
  have filled : encodeU64 version ≠ [] := by simp [encodeU64]
  have width : (overlay 0 sums 0 (encodeU64 version)).length = sums.length := by
    rw [length_overlay filled, length_encodeU64]
    omega
  refine ⟨mirrored.length, decodeU64_version, ⟨k, width.trans whole⟩, fun b below inside => ?_,
    fun b below outside => ?_⟩
  · rw [loaded, width] at inside
    rw [sumAt_version]
    exact mirrored.known b below inside
  · rw [loaded, width] at outside
    exact mirrored.short b below outside

/-! ## The whole directory -/

theorem Rescans.filed (rescans : Rescans shape crc s) : s.Filed := by
  intro handle entry found
  obtain ⟨chunk, sums, there, mirrored⟩ := rescans.files handle entry found
  exact ⟨chunk, sums, there, mirrored.length⟩

theorem Rescans.mirrored (rescans : Rescans shape crc s) (there : s.At handle chunk sums entry) :
    Mirrored shape crc chunk sums entry := by
  obtain ⟨chunk', sums', there', mirrored⟩ := rescans.files handle entry there.entry
  rw [Option.some.inj (there.chunk.symm.trans there'.chunk),
    Option.some.inj (there.sums.symm.trans there'.sums)]
  exact mirrored

theorem Rescans.change (rescans : Rescans shape crc s) (known : padsKnown shape crc s call = true)
    (fits : fits shape s call = true)
    (change : Change shape crc s handle call chunk sums entry) :
    Mirrored shape crc chunk sums entry := by
  cases change with
  | created => exact .created
  | copied fresh noChunk noMeta there => exact (rescans.mirrored there).copied
  | @written offset data old _ _ entry₀ _ there length some inside recomputed =>
      simp only [Store.fits, there.entry, Bool.or_eq_true, decide_eq_true_eq, List.isEmpty_iff] at fits
      have rounds := fits.resolve_left (by
        rintro (far | none)
        · exact Nat.not_lt.mpr inside far
        · exact some none)
      have least := Nat.div_mul_le_self (min offset entry₀.length) shape.blockSize
      refine (rescans.mirrored there).recomputed ?_ (Nat.le_max_left _ _) rounds ?_ recomputed
      · rw [length_overlay some, length]
      · omega
  | @padded fromOffset old _ _ _ entry₀ _ there length below inside some zeros recomputed =>
      simp only [Store.fits, there.entry, Bool.or_eq_true, Bool.and_eq_true, decide_eq_true_eq]
        at fits
      have rounds := (fits.resolve_left (Nat.not_lt.mpr inside)).2
      have least := Nat.div_mul_le_self (min fromOffset entry₀.length) shape.blockSize
      refine (rescans.mirrored there).recomputed ?_ below rounds ?_ recomputed
      · rw [zeros, ChunkStore.length_padded inside]
      · omega
  | filled there length full behind aligned rounds =>
      refine (rescans.mirrored there).filled rounds fun b needs missing => ?_
      simp only [padsKnown, there.entry, behind, full, aligned, decide_true, Bool.and_self,
        Bool.not_true, Bool.false_or] at known
      have one := List.all_eq_true.mp known b (List.mem_range.mpr (full ▸ needs))
      rw [there.chunkFile] at one
      simpa [Nat.not_lt.mpr missing] using one
  | versioned there => exact (rescans.mirrored there).versioned

theorem Rescans.preserved (rescans : Rescans shape crc s) (known : padsKnown shape crc s call = true)
    (fits : fits shape s call = true) (did : Did shape crc s call s') : Rescans shape crc s' := by
  cases did with
  | idle skips same => exact same ▸ rescans
  | looked handle offset length isCall directory entries =>
      have chunks : s'.chunks = s.chunks := congrArg (·.chunks) directory
      have metas : s'.metas = s.metas := congrArg (·.metas) directory
      refine ⟨fun handle entry found => ?_, fun handle chunk sums found found' => ?_⟩
      · obtain ⟨chunk, sums, there, mirrored⟩ := rescans.files handle entry (entries ▸ found)
        exact ⟨chunk, sums, ⟨chunks ▸ there.chunk, metas ▸ there.sums, found⟩, mirrored⟩
      · rw [entries]
        exact rescans.complete handle chunk sums (chunks ▸ found) (metas ▸ found')
  | changed handle chunk sums entry change now apart =>
      have mirrored := rescans.change known fits change
      refine ⟨fun other entry' found => ?_, fun other chunk' sums' found found' => ?_⟩
      · by_cases same : other = handle
        · subst same
          rw [Option.some.inj (found.symm.trans now.entry)]
          exact ⟨chunk, sums, now, mirrored⟩
        · rw [apart.entries other same] at found
          obtain ⟨chunk', sums', there, mirrored'⟩ := rescans.files other entry' found
          refine ⟨chunk', sums', ⟨?_, ?_, ?_⟩, mirrored'⟩
          · rw [apart.chunks other same]
            exact there.chunk
          · rw [apart.metas other same]
            exact there.sums
          · rw [apart.entries other same]
            exact there.entry
      · by_cases same : other = handle
        · exact ⟨entry, same ▸ now.entry⟩
        · rw [apart.chunks other same] at found
          rw [apart.metas other same] at found'
          rw [apart.entries other same]
          exact rescans.complete other chunk' sums' found found'
  | removed handle isCall there chunks metas entries =>
      refine ⟨fun other entry found => ?_, fun other chunk sums found found' => ?_⟩
      · rw [entries, getElem?_erase] at found
        split at found
        · cases found
        · rename_i different
          obtain ⟨chunk, sums, there', mirrored⟩ := rescans.files other entry found
          refine ⟨chunk, sums, ⟨?_, ?_, ?_⟩, mirrored⟩
          · rw [chunks, getElem?_erase, if_neg different]
            exact there'.chunk
          · rw [metas, getElem?_erase, if_neg different]
            exact there'.sums
          · rw [entries, getElem?_erase, if_neg different]
            exact there'.entry
      · rw [chunks, getElem?_erase] at found
        split at found
        · cases found
        · rename_i different
          rw [metas, getElem?_erase, if_neg different] at found'
          rw [entries, getElem?_erase, if_neg different]
          exact rescans.complete other chunk sums found found'

/-! ## `Scan` -/

theorem getElem?_foldl_open {f : Handle → Option Entry} (handles : List Handle)
    (entries : Std.ExtTreeMap Handle Entry) (handle : Handle) :
    (handles.foldl (fun entries handle => match f handle with
      | some entry => entries.insert handle entry
      | none => entries) entries)[handle]? =
      ((if handle ∈ handles then f handle else none).or entries[handle]?) := by
  induction handles generalizing entries with
  | nil => simp
  | cons first rest ih =>
      rw [List.foldl_cons, ih]
      by_cases same : first = handle
      · subst same
        cases opened : f first with
        | none => simp
        | some entry =>
            simp
            split <;> rfl
      · cases opened : f first with
        | none => simp [Ne.symm same]
        | some entry => simp [Ne.symm same, same, Std.ExtTreeMap.getElem?_insert]

theorem mem_keys_iff {β : Type} {m : Std.ExtTreeMap Handle β} :
    handle ∈ m.keys ↔ ∃ v, m[handle]? = some v := by
  rw [Std.ExtTreeMap.mem_keys, Std.ExtTreeMap.mem_iff_isSome_getElem?, Option.isSome_iff_exists]

theorem scan_metas {directory : Directory} (found : directory.chunks[handle]? = some chunk) :
    (scan shape directory).metas[handle]? = directory.metas[handle]? := by
  show ((List.filter _ _).foldl _ directory.metas)[handle]? = _
  refine (getElem?_foldl_erase _ _ _).2 fun orphan => ?_
  have inChunks : handle ∈ directory.chunks.keys ++ directory.otherChunks :=
    List.mem_append_left _ (mem_keys_iff.mpr ⟨chunk, found⟩)
  have outside := (List.mem_filter.mp orphan).2
  rw [Bool.not_eq_true', ← Bool.not_eq_true, List.contains_iff_mem] at outside
  exact outside inChunks

theorem scan_entries {directory : Directory} :
    (scan shape directory).entries[handle]? = openEntry shape directory handle := by
  have opened : (scan shape directory).entries[handle]? =
      if handle ∈ (directory.chunks.keys ++ directory.otherChunks).filter fun handle =>
        (directory.metas.keys ++ directory.otherMetas).contains handle
      then openEntry shape (scan shape directory).toDirectory handle else none := by
    refine (getElem?_foldl_open _ _ _).trans ?_
    rw [Std.ExtTreeMap.getElem?_empty, Option.or_none]
    rfl
  have chunks : (scan shape directory).chunks = directory.chunks := rfl
  rw [opened]
  cases chunk : directory.chunks[handle]? with
  | none => simp [openEntry, chunks, chunk]
  | some file =>
      have metas : (scan shape directory).metas[handle]? = directory.metas[handle]? :=
        scan_metas chunk
      cases sums : directory.metas[handle]? with
      | none => simp [openEntry, chunks, chunk, metas, sums]
      | some _ =>
          rw [if_pos]
          · simp only [openEntry, chunks, chunk, metas, sums]
          · rw [List.mem_filter, List.contains_iff_mem]
            exact ⟨List.mem_append_left _ (mem_keys_iff.mpr ⟨_, chunk⟩),
              List.mem_append_left _ (mem_keys_iff.mpr ⟨_, sums⟩)⟩

theorem openEntry_eq {directory : Directory} (found : directory.chunks[handle]? = some chunk)
    (found' : directory.metas[handle]? = some sums) {k : Nat} (whole : sums.length = 8 + 4 * k) :
    openEntry shape directory handle = some {
      version := decodeU64 sums
      length := chunk.length
      checksums := (List.range (loaded shape sums chunk.length)).map (sumAt sums) } := by
  unfold openEntry
  rw [found, found']
  dsimp only
  rw [if_neg (by rw [whole, metaHeaderSize]; omega)]
  rfl

theorem openEntry_some {directory : Directory} (opened : openEntry shape directory handle = some entry) :
    ∃ chunk sums, directory.chunks[handle]? = some chunk ∧ directory.metas[handle]? = some sums := by
  unfold openEntry at opened
  split at opened
  · rename_i chunk sums found found'
    exact ⟨chunk, sums, found, found'⟩
  · cases opened

theorem getElem?_loaded {n b : Nat} : ((List.range n).map (sumAt sums))[b]? =
    if b < n then some (sumAt sums b) else none := by
  rw [List.getElem?_map]
  by_cases inside : b < n
  · rw [List.getElem?_range inside, if_pos inside]
    rfl
  · rw [List.getElem?_eq_none (by rw [List.length_range]; exact Nat.le_of_not_lt inside),
      if_neg inside]
    rfl

theorem rescans_initial (scanned : Scanned shape s) : Rescans shape crc s := by
  obtain ⟨directory, whole, rfl⟩ := scanned
  refine ⟨fun handle entry found => ?_, fun handle chunk sums found found' => ?_⟩
  · have opened := scan_entries.symm.trans found
    obtain ⟨chunk, sums, inChunks, inMetas⟩ := openEntry_some opened
    obtain ⟨k, whole⟩ := whole handle sums inMetas
    rw [openEntry_eq inChunks inMetas whole] at opened
    cases opened
    refine ⟨chunk, sums, ⟨inChunks, (scan_metas inChunks).trans inMetas, found⟩,
      ⟨rfl, rfl, ⟨k, whole⟩, fun b below inside => ?_, fun b below outside c found => ?_⟩⟩
    · rw [getElem?_loaded, if_pos inside]
    · rw [getElem?_loaded, if_neg (Nat.not_lt.mpr outside)] at found
      cases found
  · have inChunks : directory.chunks[handle]? = some chunk := found
    have inMetas := (scan_metas inChunks).symm.trans found'
    obtain ⟨k, whole⟩ := whole handle sums inMetas
    exact ⟨_, scan_entries.trans (openEntry_eq inChunks inMetas whole)⟩

theorem rescans_of_allowed (reachable : Reachable (step shape crc) (Scanned shape) (fun s request =>
      succeeds shape s request.2 request.1 = true ∧ fits shape s request.1 = true ∧
        padsKnown shape crc s request.1 = true) s) : Rescans shape crc s := by
  refine reachable.invariant (fun _ => rescans_initial) fun s request s' rescans allowed taken => ?_
  cases taken
  exact rescans.preserved allowed.2.2 allowed.2.1
    (after_did rescans.filed allowed.1 allowed.2.1)

/-! ## The restart -/

theorem Rescans.list (rescans : Rescans shape crc s) : (scan shape s.toDirectory).list = s.list := by
  refine congrArg Std.ExtTreeMap.toList (Std.ExtTreeMap.ext_getElem? fun {handle} => ?_)
  rw [Std.ExtTreeMap.getElem?_map, Std.ExtTreeMap.getElem?_map, scan_entries]
  cases found : s.entries[handle]? with
  | none =>
      cases opened : openEntry shape s.toDirectory handle with
      | none => rfl
      | some entry =>
          obtain ⟨chunk, sums, inChunks, inMetas⟩ := openEntry_some opened
          obtain ⟨entry', there⟩ := rescans.complete handle chunk sums inChunks inMetas
          rw [found] at there
          cases there
  | some entry =>
      obtain ⟨chunk, sums, there, mirrored⟩ := rescans.files handle entry found
      obtain ⟨k, whole⟩ := mirrored.whole
      rw [openEntry_eq there.chunk there.sums whole, Option.map_some, Option.map_some,
        mirrored.version, mirrored.length]

theorem Rescans.read (rescans : Rescans shape crc s) {offset length : Nat}
    (short : offset + length < 2 ^ 64) :
    ((scan shape s.toDirectory).read shape crc none handle offset length).1 =
      (s.read shape crc none handle offset length).1 := by
  cases found : s.entries[handle]? with
  | none =>
      have absent : (scan shape s.toDirectory).entries[handle]? = none := by
        cases opened : openEntry shape s.toDirectory handle with
        | none => rw [scan_entries, opened]
        | some entry =>
            obtain ⟨chunk, sums, inChunks, inMetas⟩ := openEntry_some opened
            obtain ⟨entry', there⟩ := rescans.complete handle chunk sums inChunks inMetas
            rw [found] at there
            cases there
      rw [Store.read, Store.read, found, absent]
  | some entry =>
      obtain ⟨chunk, sums, there, mirrored⟩ := rescans.files handle entry found
      obtain ⟨k, whole⟩ := mirrored.whole
      have opened : (scan shape s.toDirectory).entries[handle]? = some _ :=
        scan_entries.trans (openEntry_eq there.chunk there.sums whole)
      have again : (scan shape s.toDirectory).At handle chunk sums _ :=
        ⟨there.chunk, (scan_metas there.chunk).trans there.sums, opened⟩
      refine (read_congr there again mirrored.length mirrored.length short (fun b below inside => ?_)
        fun b below outside c found => ?_).symm
      · dsimp only at inside ⊢
        rw [List.length_map, List.length_range] at inside
        rw [getElem?_loaded, if_pos inside]
        exact mirrored.known b below (mirrored.length ▸ inside)
      · dsimp only at outside
        rw [List.length_map, List.length_range, mirrored.length] at outside
        obtain ⟨zero, wrong, rounds⟩ := mirrored.short b below outside c found
        refine ⟨fun clean => wrong ?_, rounds⟩
        rw [Clean, found, zero, ← mirrored.length, List.take_length] at clean
        exact (Option.some.inj clean).symm

theorem restarts_of_allowed (reachable : Reachable (step shape crc) (Scanned shape)
      (fun s request => succeeds shape s request.2 request.1 = true ∧
        fits shape s request.1 = true ∧ padsKnown shape crc s request.1 = true) s) :
    (scan shape s.toDirectory).list = s.list ∧
      ∀ reads, (∀ r ∈ reads, r.2.1 + r.2.2 < 2 ^ 64) →
        (scan shape s.toDirectory).answers shape crc reads = s.answers shape crc reads := by
  have rescans := rescans_of_allowed reachable
  exact ⟨rescans.list, fun reads short => answers_congr (fun _ _ _ => rescans.read) short⟩

theorem quarter_lt : 4 < 2 ^ 64 := by decide

def quarters : Shape where
  chunkSize := 16
  blockSize := 4
  chunkSize_lt := by decide
  blockSize_lt := quarter_lt
  positive := by decide

def oneChunk (chunk sums : Bytes) : Directory where
  chunks := (∅ : Std.ExtTreeMap Handle Bytes).insert 1 chunk
  metas := (∅ : Std.ExtTreeMap Handle Bytes).insert 1 sums

theorem scanned_oneChunk {k : Nat} (whole : sums.length = 8 + 4 * k) :
    Scanned shape (scan shape (oneChunk chunk sums)) := by
  refine ⟨_, fun handle sums' found => ?_, rfl⟩
  rw [oneChunk, getElem?_insert] at found
  split at found
  · cases found
    exact ⟨k, whole⟩
  · rw [Std.ExtTreeMap.getElem?_empty] at found
    cases found

/-- A file of twenty bytes, longer than a chunk. -/
theorem restarts_fails : ∃ s, Reachable (step quarters crc32) (Scanned quarters)
      (fun s request => succeeds quarters s request.2 request.1 = true) s ∧
    (scan quarters s.toDirectory).list ≠ s.list := by
  have scanned : Scanned quarters (scan quarters
      (oneChunk (List.replicate 20 7) (encodeU64 1 ++ List.replicate 20 0))) :=
    scanned_oneChunk (k := 5) rfl
  have ran : run (step quarters crc32) (scan quarters
      (oneChunk (List.replicate 20 7) (encodeU64 1 ++ List.replicate 20 0))) [(.pad 1 4, none)] =
      some _ := rfl
  exact ⟨_, reachable_run scanned (by decide +kernel) ran, by decide +kernel⟩

theorem restarts_of_allowed_run :
    let s := scan quarters (oneChunk [1, 2, 3, 4, 5] (encodeU64 1 ++ List.replicate 4 0))
    let calls := [(.write 1 7 [9, 9], none), (.createCopy 2 3 1, none), (.pad 2 14, none),
      (.setVersion 1 4, none), (.create 3 1, none), (.remove 3, none), (.read 1 0 4, none)]
    ∃ s', run (step quarters crc32) s calls = some s' ∧
      (scan quarters s'.toDirectory).list = s'.list ∧
      ∀ reads, (∀ r ∈ reads, r.2.1 + r.2.2 < 2 ^ 64) →
        (scan quarters s'.toDirectory).answers quarters crc32 reads =
          s'.answers quarters crc32 reads := by
  intro s calls
  have scanned : Scanned quarters s := scanned_oneChunk (k := 1) rfl
  have ran : run (step quarters crc32) s calls = some _ := rfl
  exact ⟨_, ran, restarts_of_allowed (reachable_run scanned (by decide +kernel) ran)⟩

end

end Store

end Gfs.Chunkserver.Disk
