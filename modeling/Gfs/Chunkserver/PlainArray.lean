import Gfs.Chunkserver.Rescan
import Mathlib.Logic.Function.Basic

/-!
# The chunk store is a plain byte array

Replaying the calls on byte arrays gives what every read of the store answers. The bytes on the disk
are those of the array, and every block has its checksum, as long as rounding a length up to blocks
does not overflow.
-/

namespace Gfs.Chunkserver.Disk
open Lib.Maps Lib.Overlay Lib.Transition

abbrev Arrays := Handle → Option Bytes

namespace Arrays

def written (shape : Shape) (offset : Nat) (new data : Bytes) : Bytes :=
  if new = [] ∨ shape.chunkSize < offset + new.length then data else overlay 0 data offset new

def padded (shape : Shape) (fromOffset : Nat) (data : Bytes) : Bytes :=
  if shape.chunkSize < fromOffset then data
  else ChunkStore.padded shape.chunkSize data fromOffset

def replay (shape : Shape) (arrays : Arrays) : Call → Arrays
  | .create handle _ => Function.update arrays handle ((arrays handle).or (some []))
  | .createCopy handle _ copyFrom =>
      Function.update arrays handle ((arrays handle).or (arrays copyFrom))
  | .write handle offset data =>
      Function.update arrays handle ((arrays handle).map (written shape offset data))
  | .pad handle fromOffset =>
      Function.update arrays handle ((arrays handle).map (padded shape fromOffset))
  | .setVersion .. => arrays
  | .remove handle => Function.update arrays handle none
  | .read .. => arrays

end Arrays

structure Traced where
  store : Store
  arrays : Arrays

namespace Traced

def step (shape : Shape) (crc : Bytes → UInt32) (r : Traced) (request : Call × Fault) :
    Option Traced :=
  some ⟨r.store.after shape crc request.2 request.1, r.arrays.replay shape request.1⟩

/-- A store on an empty directory. -/
def Initial (shape : Shape) (r : Traced) : Prop :=
  r = ⟨Store.scan shape {}, fun _ => none⟩

/-- The range of a read is one of 64 bits. -/
def short : Call → Bool
  | .read _ offset length => offset + length < 2 ^ 64
  | _ => true

end Traced

structure Sealed (shape : Shape) (crc : Bytes → UInt32) (data : Bytes) (entry : Entry) : Prop where
  length : data.length = entry.length
  below : entry.length ≤ shape.chunkSize
  rounds : ∀ b, b * shape.blockSize < entry.length → (b + 1) * shape.blockSize < 2 ^ 64
  sums : ∀ b, b * shape.blockSize < entry.length →
    entry.checksums[b]? = some (crc (page shape.blockSize data b))

def Store.Holds (shape : Shape) (crc : Bytes → UInt32) (s : Store) (handle : Handle) :
    Option Bytes → Prop
  | none => s.entries[handle]? = none ∧ s.chunks[handle]? = none ∧ s.metas[handle]? = none
  | some data => ∃ sums entry, s.At handle data sums entry ∧ Sealed shape crc data entry

structure Traced.Backed (shape : Shape) (crc : Bytes → UInt32) (r : Traced) : Prop where
  holds : ∀ handle, r.store.Holds shape crc handle (r.arrays handle)
  corrupt : r.store.corrupt = []

section
variable {shape : Shape} {crc : Bytes → UInt32} {s s' : Store} {handle : Handle}
  {data data' chunk sums sums' : Bytes} {entry entry' : Entry} {call : Call} {arrays : Arrays}

/-! ## One chunk -/

theorem Sealed.clean (sealed : Sealed shape crc data entry) {b : Nat}
    (below : b * shape.blockSize < entry.length) : Store.Clean shape crc data entry b := by
  rw [Store.Clean, ← sealed.length, List.take_length]
  exact sealed.sums b below

theorem Sealed.recomputed (sealed : Sealed shape crc data entry) {length first : Nat}
    (length' : data'.length = length) (below : length ≤ shape.chunkSize)
    (rounds : length + shape.blockSize ≤ 2 ^ 64) (before : first * shape.blockSize ≤ entry.length)
    (grown : entry.length ≤ length)
    (same : ∀ p < first * shape.blockSize, data'.getD p 0 = data.getD p 0)
    (recomputed : Store.Recomputed shape crc data' sums { entry with length } first entry' sums') :
    Sealed shape crc data' entry' := by
  have size : entry'.length = length := recomputed.length
  refine ⟨length'.trans size.symm, size ▸ below, fun b inside => ?_, fun b inside => ?_⟩
  · exact Store.block_lt rounds (size ▸ inside)
  · rw [size] at inside
    by_cases later : first ≤ b
    · exact recomputed.fresh b later inside
    · have early := Nat.lt_of_not_le later
      have next : (b + 1) * shape.blockSize ≤ first * shape.blockSize := Nat.mul_le_mul_right _ early
      have full : (b + 1) * shape.blockSize ≤ data.length := sealed.length ▸ next.trans before
      have full' : (b + 1) * shape.blockSize ≤ data'.length := by
        rw [length']
        exact (next.trans before).trans grown
      have inside' : b * shape.blockSize < entry.length := by
        have positive := shape.positive
        rw [Nat.add_one_mul] at next
        omega
      rw [recomputed.kept b early, page_full 0 full' full fun p _ upTo => same p (upTo.trans_le next)]
      refine congrArg some ?_
      show entry.checksums.getD b 0 = _
      rw [List.getD_eq_getElem?_getD, sealed.sums b inside', Option.getD_some]

theorem Sealed.created {version : UInt64} : Sealed shape crc [] { version } :=
  ⟨rfl, Nat.zero_le _, fun _ inside => absurd inside (Nat.not_lt_zero _),
    fun _ inside => absurd inside (Nat.not_lt_zero _)⟩

theorem Sealed.written (sealed : Sealed shape crc data entry) {offset : Nat} {new : Bytes}
    (some : new ≠ []) (inside : offset + new.length ≤ shape.chunkSize)
    (rounds : max entry.length (offset + new.length) + shape.blockSize ≤ 2 ^ 64)
    (recomputed : Store.Recomputed shape crc (overlay 0 data offset new) sums
      { entry with length := max entry.length (offset + new.length) }
      (min offset entry.length / shape.blockSize) entry' sums') :
    Sealed shape crc (overlay 0 data offset new) entry' := by
  have least := Nat.div_mul_le_self (min offset entry.length) shape.blockSize
  refine sealed.recomputed ?_ (max_le sealed.below inside) rounds (by omega) (Nat.le_max_left _ _)
    (fun p before => ?_) recomputed
  · rw [length_overlay some, sealed.length]
  · rw [getD_overlay, if_neg (by omega)]

theorem Sealed.padded (sealed : Sealed shape crc data entry) {fromOffset : Nat}
    (inside : fromOffset ≤ shape.chunkSize) (rounds : shape.chunkSize + shape.blockSize ≤ 2 ^ 64)
    (recomputed : Store.Recomputed shape crc (ChunkStore.padded shape.chunkSize data fromOffset) sums
      { entry with length := shape.chunkSize }
      (min fromOffset entry.length / shape.blockSize) entry' sums') :
    Sealed shape crc (ChunkStore.padded shape.chunkSize data fromOffset) entry' := by
  have least := Nat.div_mul_le_self (min fromOffset entry.length) shape.blockSize
  refine sealed.recomputed (ChunkStore.length_padded inside) (Nat.le_refl _) rounds (by omega)
    sealed.below (fun p before => ?_) recomputed
  rw [Store.getD_padded, if_pos (by omega)]

/-! ## The bytes of a `ChunkEntry` -/

theorem write_data {old : ChunkEntry} {offset : Nat} {new : Bytes}
    (short : offset + new.length < 2 ^ 63) :
    (ChunkStore.write shape.chunkSize .ok old offset new).2.data =
      Arrays.written shape offset new old.data := by
  have wrap : u64 (offset + new.length) = offset + new.length := u64_of_lt (by omega)
  unfold ChunkStore.write Arrays.written
  rw [wrap]
  by_cases outside : shape.chunkSize < offset + new.length
  · rw [if_pos outside, if_pos (.inr outside)]
  · rw [if_neg outside]
    by_cases empty : new = []
    · rw [if_pos empty, if_pos (.inl empty)]
    · rw [if_neg empty, if_neg (by omega), if_neg (not_or.mpr ⟨empty, outside⟩)]

theorem pad_data {old : ChunkEntry} {start : Nat} :
    (ChunkStore.pad shape.chunkSize .ok old start).2.data = Arrays.padded shape start old.data := by
  unfold ChunkStore.pad Arrays.padded
  split
  · rfl
  · rfl

/-! ## The whole store -/

theorem Store.Holds.known {array : Option Bytes} (holds : s.Holds shape crc handle array)
    (there : s.At handle chunk sums entry) : array = some chunk ∧ Sealed shape crc chunk entry := by
  cases array with
  | none =>
      have absent := holds.1
      rw [there.entry] at absent
      cases absent
  | some data =>
      obtain ⟨sums', entry', there', sealed⟩ := holds
      rw [Option.some.inj (there.chunk.symm.trans there'.chunk),
        Option.some.inj (there.entry.symm.trans there'.entry)]
      exact ⟨rfl, sealed⟩

theorem Store.Holds.apart {array : Option Bytes} {other : Handle}
    (holds : s.Holds shape crc other array) (apart : Store.Apart s s' handle)
    (different : other ≠ handle) : s'.Holds shape crc other array := by
  cases array with
  | none =>
      obtain ⟨entries, chunks, metas⟩ := holds
      exact ⟨(apart.entries other different).trans entries,
        (apart.chunks other different).trans chunks, (apart.metas other different).trans metas⟩
  | some data =>
      obtain ⟨sums, entry, there, sealed⟩ := holds
      exact ⟨sums, entry, ⟨(apart.chunks other different).trans there.chunk,
        (apart.metas other different).trans there.sums,
        (apart.entries other different).trans there.entry⟩, sealed⟩

theorem Store.Holds.none_iff {array : Option Bytes} (holds : s.Holds shape crc handle array) :
    array = none ↔ s.entries[handle]? = none := by
  cases array with
  | none => exact iff_of_true rfl holds.1
  | some data =>
      obtain ⟨sums, entry, there, _⟩ := holds
      exact iff_of_false nofun (by rw [there.entry]; exact nofun)

theorem Store.Holds.isSome {array : Option Bytes} (holds : s.Holds shape crc handle array)
    (there : (s.entries[handle]?).isSome ∨ (s.chunks[handle]?).isSome ∨ (s.metas[handle]?).isSome) :
    ∃ data, array = some data := by
  cases array with
  | none =>
      obtain ⟨entries, chunks, metas⟩ := holds
      simp [entries, chunks, metas] at there
  | some data => exact ⟨data, rfl⟩

/-- The calls that the store skips do nothing to the arrays. -/
theorem replay_skips (holds : ∀ handle, s.Holds shape crc handle (arrays handle))
    (skips : s.Skips shape call) : arrays.replay shape call = arrays := by
  cases call with
  | create handle version =>
      obtain ⟨data, found⟩ := (holds handle).isSome skips
      rw [Arrays.replay, found, Option.some_or, ← found, Function.update_eq_self]
  | createCopy handle version copyFrom =>
      rcases skips with absent | there
      · rw [Arrays.replay, (holds copyFrom).none_iff.mpr absent, Option.or_none,
          Function.update_eq_self]
      · obtain ⟨data, found⟩ := (holds handle).isSome there
        rw [Arrays.replay, found, Option.some_or, ← found, Function.update_eq_self]
  | write handle offset new =>
      refine Function.update_eq_iff.mpr ⟨?_, fun _ _ => rfl⟩
      cases found : arrays handle with
      | none => rfl
      | some data =>
          refine congrArg some (if_pos ?_)
          rcases skips with absent | outside | empty
          · rw [(holds handle).none_iff.mpr absent] at found
            cases found
          · exact .inr (outside.trans_le (Nat.mod_le _ _))
          · exact .inl empty
  | pad handle fromOffset =>
      refine Function.update_eq_iff.mpr ⟨?_, fun _ _ => rfl⟩
      cases found : arrays handle with
      | none => rfl
      | some data =>
          refine congrArg some (if_pos ?_)
          rcases skips with absent | outside
          · rw [(holds handle).none_iff.mpr absent] at found
            cases found
          · exact outside
  | setVersion => rfl
  | remove handle =>
      have absent := (holds handle).none_iff.mpr skips
      rw [Arrays.replay, ← absent, Function.update_eq_self]
  | read => exact skips.elim

theorem replay_change (holds : ∀ handle, s.Holds shape crc handle (arrays handle))
    (fits : Store.fits shape s call = true)
    (change : Store.Change shape crc s handle call chunk sums entry) :
    arrays.replay shape call = Function.update arrays handle (some chunk) ∧
      Sealed shape crc chunk entry := by
  cases change with
  | created fresh =>
      rw [Arrays.replay, (holds handle).none_iff.mpr fresh]
      exact ⟨rfl, .created⟩
  | copied fresh noChunk noMeta there =>
      obtain ⟨found, sealed⟩ := (holds _).known there
      rw [Arrays.replay, (holds handle).none_iff.mpr fresh, found]
      exact ⟨rfl, ⟨sealed.length, sealed.below, sealed.rounds, sealed.sums⟩⟩
  | written there length some inside recomputed =>
      obtain ⟨found, sealed⟩ := (holds _).known there
      simp only [Store.fits, there.entry, Bool.or_eq_true, decide_eq_true_eq, List.isEmpty_iff] at fits
      have rounds := fits.resolve_left (not_or.mpr ⟨Nat.not_lt.mpr inside, some⟩)
      refine ⟨?_, sealed.written some inside rounds recomputed⟩
      rw [Arrays.replay, found, Option.map_some, Arrays.written,
        if_neg (not_or.mpr ⟨some, Nat.not_lt.mpr inside⟩)]
  | padded there length below inside some zeros recomputed =>
      obtain ⟨found, sealed⟩ := (holds _).known there
      simp only [Store.fits, there.entry, Bool.or_eq_true, Bool.and_eq_true, decide_eq_true_eq]
        at fits
      have rounds := (fits.resolve_left (Nat.not_lt.mpr inside)).2
      subst zeros
      refine ⟨?_, sealed.padded inside rounds recomputed⟩
      rw [Arrays.replay, found, Option.map_some, Arrays.padded, if_neg (Nat.not_lt.mpr inside)]
  | @filled fromOffset _ _ entry there length full behind aligned rounds =>
      obtain ⟨found, sealed⟩ := (holds _).known there
      have same : ChunkStore.padded shape.chunkSize chunk fromOffset = chunk := by
        rw [ChunkStore.padded, List.take_of_length_le (by omega), length, full, Nat.sub_self,
          List.replicate_zero, List.append_nil]
      refine ⟨?_, sealed.length, sealed.below, sealed.rounds, fun b inside => ?_⟩
      · rw [Arrays.replay, found, Option.map_some, Arrays.padded,
          if_neg (Nat.not_lt.mpr behind.le), same]
      · have there' := sealed.sums b inside
        rw [List.getElem?_append_left (List.getElem?_eq_some_iff.mp there').1]
        exact there'
  | versioned there =>
      obtain ⟨found, sealed⟩ := (holds _).known there
      rw [Arrays.replay, ← found, Function.update_eq_self]
      exact ⟨rfl, ⟨sealed.length, sealed.below, sealed.rounds, sealed.sums⟩⟩

theorem Traced.Backed.filed {r : Traced} (backed : r.Backed shape crc) : r.store.Filed := by
  intro handle entry found
  cases array : r.arrays handle with
  | none =>
      have holds := backed.holds handle
      rw [array] at holds
      rw [holds.1] at found
      cases found
  | some data =>
      have holds := backed.holds handle
      rw [array] at holds
      obtain ⟨sums, entry', there, sealed⟩ := holds
      cases Option.some.inj (found.symm.trans there.entry)
      exact ⟨data, sums, there, sealed.length⟩

def Arrays.answer (arrays : Arrays) (handle : Handle) (offset length : Nat) : ResultCode × Bytes :=
  match arrays handle with
  | none => (.noSuchChunk, [])
  | some data =>
      if data.length < offset then (.outOfRange, []) else (.ok, (data.drop offset).take length)

theorem Traced.Backed.read {r : Traced} (backed : r.Backed shape crc) {offset length : Nat}
    (short : offset + length < 2 ^ 64) :
    r.store.read shape crc none handle offset length =
      (some (r.arrays.answer handle offset length), r.store) := by
  have holds := backed.holds handle
  unfold Arrays.answer
  cases array : r.arrays handle with
  | none =>
      rw [array] at holds
      rw [Store.read, holds.1]
  | some data =>
      rw [array] at holds
      obtain ⟨sums, entry, there, sealed⟩ := holds
      dsimp only
      rw [sealed.length]
      split
      · rename_i beyond
        exact Store.read_outside there beyond
      · rename_i within
        have within := Nat.le_of_not_lt within
        have bounded := sealed.below.trans_lt shape.chunkSize_lt
        have part : (data.drop offset).take (min (offset + length) entry.length - offset) =
            (data.drop offset).take length := by
          rw [List.take_eq_take_iff, List.length_drop, sealed.length]
          omega
        rw [Store.read_clean there sealed.length.ge sealed.rounds bounded short within
          fun b => sealed.clean, part]

namespace Traced

theorem Backed.preserved {r : Traced} (backed : r.Backed shape crc) {fault : Fault}
    (succeeds : Store.succeeds shape r.store fault call = true)
    (fits : Store.fits shape r.store call = true) (ranged : short call = true) :
    Backed shape crc ⟨r.store.after shape crc fault call, r.arrays.replay shape call⟩ := by
  have did : Store.Did shape crc r.store call (r.store.after shape crc fault call) :=
    Store.after_did backed.filed succeeds fits
  cases did with
  | idle skips same => exact ⟨by rw [replay_skips backed.holds skips, same]; exact backed.holds,
      by rw [same]; exact backed.corrupt⟩
  | looked handle offset length isCall =>
      subst isCall
      have quiet : fault = none := by simpa [Store.succeeds] using succeeds
      have unchanged : r.store.after shape crc fault (.read handle offset length) = r.store := by
        subst quiet
        exact congrArg Prod.snd (backed.read (of_decide_eq_true ranged))
      rw [unchanged]
      exact backed
  | changed handle chunk sums entry change now apart =>
      obtain ⟨arrays, sealed⟩ := replay_change backed.holds fits change
      refine ⟨fun other => ?_, apart.corrupt.trans backed.corrupt⟩
      dsimp only
      rw [arrays]
      by_cases same : other = handle
      · subst same
        rw [Function.update_self]
        exact ⟨sums, entry, now, sealed⟩
      · rw [Function.update_of_ne same]
        exact (backed.holds other).apart apart same
  | removed handle isCall there chunks metas entries otherChunks otherMetas corrupt =>
      subst isCall
      refine ⟨fun other => ?_, by rw [corrupt, backed.corrupt, List.filter_nil]⟩
      rw [Arrays.replay]
      dsimp only
      by_cases same : other = handle
      · subst same
        rw [Function.update_self]
        exact ⟨by rw [entries, getElem?_erase, if_pos rfl],
          by rw [chunks, getElem?_erase, if_pos rfl], by rw [metas, getElem?_erase, if_pos rfl]⟩
      · rw [Function.update_of_ne same]
        have apart : ∀ {β : Type} (m : Std.ExtTreeMap Handle β), (m.erase handle)[other]? = m[other]? :=
          fun m => getElem?_erase.trans (if_neg (Ne.symm same))
        have holds := backed.holds other
        cases array : r.arrays other with
        | none =>
            rw [array] at holds
            exact ⟨by rw [entries, apart]; exact holds.1, by rw [chunks, apart]; exact holds.2.1,
              by rw [metas, apart]; exact holds.2.2⟩
        | some data =>
            rw [array] at holds
            obtain ⟨sums, entry, there, sealed⟩ := holds
            exact ⟨sums, entry, ⟨by rw [chunks, apart]; exact there.chunk,
              by rw [metas, apart]; exact there.sums, by rw [entries, apart]; exact there.entry⟩, sealed⟩

theorem backed_initial {r : Traced} (initial : Initial shape r) : r.Backed shape crc := by
  cases initial
  refine ⟨fun handle => ⟨?_, rfl, rfl⟩, rfl⟩
  show (Store.scan shape {}).entries[handle]? = none
  rw [Store.scan_entries]
  rfl

theorem refines_of_allowed {r : Traced} (reachable : Reachable (step shape crc) (Initial shape)
      (fun r request => Store.succeeds shape r.store request.2 request.1 = true ∧
        short request.1 = true ∧ Store.fits shape r.store request.1 = true) r) :
    (∀ handle offset length, offset + length < 2 ^ 64 →
      (r.store.read shape crc none handle offset length).1 =
        some (r.arrays.answer handle offset length)) ∧
      r.store.corrupt = [] := by
  have backed : r.Backed shape crc := by
    refine reachable.invariant (fun _ => backed_initial) fun r request r' backed allowed taken => ?_
    cases taken
    exact backed.preserved allowed.1 allowed.2.2 allowed.2.1
  exact ⟨fun handle offset length short => congrArg Prod.fst (backed.read short), backed.corrupt⟩

theorem twoBytes_lt : 2 < 2 ^ 64 := by decide

/-- A block that is as long as a 64-bit number allows. -/
def widest : Shape where
  chunkSize := 2
  blockSize := 2 ^ 64 - 1
  chunkSize_lt := twoBytes_lt
  blockSize_lt := by decide
  positive := by decide

theorem refines_fails : ∃ r, Reachable (step widest crc32) (Initial widest)
      (fun r request => Store.succeeds widest r.store request.2 request.1 = true ∧
        short request.1 = true) r ∧
    (r.store.read widest crc32 none 1 0 1).1 = some (.checksumMismatch, []) ∧
    r.arrays.answer 1 0 1 = (.ok, [97]) := by
  have ran : run (step widest crc32) ⟨Store.scan widest {}, fun _ => none⟩
      [(.create 1 1, none), (.write 1 0 [97, 98], none)] = some _ := rfl
  exact ⟨_, reachable_run rfl (by decide +kernel) ran, by decide +kernel, by decide +kernel⟩

theorem refines_of_allowed_run :
    let calls := [(.create 1 1, none), (.write 1 5 [1, 2, 3], none), (.pad 1 7, none),
      (.createCopy 2 3 1, none), (.write 2 14 [4, 5], none), (.setVersion 1 4, none),
      (.create 3 1, none), (.remove 3, none), (.read 2 0 20, none)]
    ∃ r, run (step Store.quarters crc32) ⟨Store.scan Store.quarters {}, fun _ => none⟩ calls =
        some r ∧
      (∀ handle offset length, offset + length < 2 ^ 64 →
        (r.store.read Store.quarters crc32 none handle offset length).1 =
          some (r.arrays.answer handle offset length)) ∧
      r.store.corrupt = [] := by
  intro calls
  have ran : run (step Store.quarters crc32) ⟨Store.scan Store.quarters {}, fun _ => none⟩ calls =
      some _ := rfl
  exact ⟨_, ran, refines_of_allowed (reachable_run rfl (by decide +kernel) ran)⟩

end Traced

end

end Gfs.Chunkserver.Disk
