import Gfs.Chunkserver.Calls

/-!
# What `Read` answers

A read checks the blocks that it touches and no others. What it answers with `OK` are bytes of blocks
whose checksums are right, also where the end of the range overflows.
-/

namespace Gfs.Chunkserver.Disk
open Lib.Overlay

namespace Store

variable {shape : Shape} {crc : Bytes → UInt32} {fault : Fault} {s t : Store} {handle : Handle}
  {chunk sums sums' : Bytes} {entry entry' : Entry} {offset length b : Nat}

def Clean (shape : Shape) (crc : Bytes → UInt32) (chunk : Bytes) (entry : Entry) (b : Nat) : Prop :=
  entry.checksums[b]? = some (crc (page shape.blockSize (chunk.take entry.length) b))

instance : Decidable (Clean shape crc chunk entry b) :=
  inferInstanceAs (Decidable (_ = _))

def answers (shape : Shape) (crc : Bytes → UInt32) (s : Store) :
    List (Handle × Nat × Nat) → List (Option (ResultCode × Bytes))
  | [] => []
  | (handle, offset, length) :: rest =>
      let result := s.read shape crc none handle offset length
      result.1 :: answers shape crc result.2 rest

theorem read_same (chunks : t.chunks = s.chunks) (entries : t.entries = s.entries) :
    (t.read shape crc fault handle offset length).1 =
      (s.read shape crc fault handle offset length).1 := by
  have file : t.chunkFile handle = s.chunkFile handle := by rw [chunkFile, chunks, chunkFile]
  rw [read, read, entries]
  cases s.entries[handle]? with
  | none => rfl
  | some entry =>
      dsimp only
      rw [file]
      split_ifs <;> first | rfl | skip
      all_goals
        cases preadAll fault 0 (s.chunkFile handle) _ _ with
        | none => rfl
        | some buf =>
            dsimp only
            split_ifs <;> rfl

theorem answers_congr (same : ∀ handle offset length, offset + length < 2 ^ 64 →
      (s.read shape crc none handle offset length).1 = (t.read shape crc none handle offset length).1)
    {reads : List (Handle × Nat × Nat)} (short : ∀ r ∈ reads, r.2.1 + r.2.2 < 2 ^ 64) :
    s.answers shape crc reads = t.answers shape crc reads := by
  induction reads generalizing s t with
  | nil => rfl
  | cons request rest ih =>
      obtain ⟨handle, offset, length⟩ := request
      obtain ⟨first, others⟩ := List.forall_mem_cons.mp short
      rw [answers, answers, same handle offset length first]
      refine congrArg (_ :: ·) (ih (fun handle' offset' length' short' => ?_) others)
      have unchanged : ∀ u : Store, ((u.read shape crc none handle offset length).2.read shape crc none
          handle' offset' length').1 = (u.read shape crc none handle' offset' length').1 := by
        intro u
        have state : (u.read shape crc none handle offset length).2.toDirectory = u.toDirectory ∧
            (u.read shape crc none handle offset length).2.entries = u.entries := read_state
        exact read_same (congrArg (·.chunks) state.1) state.2
      rw [unchanged, unchanged]
      exact same handle' offset' length' short'

theorem read_outside (there : s.At handle chunk sums entry) (beyond : entry.length < offset) :
    s.read shape crc none handle offset length = (some (.outOfRange, []), s) := by
  rw [read, there.entry]
  dsimp only
  rw [if_pos beyond]

theorem read_empty (there : s.At handle chunk sums entry) (inside : offset ≤ entry.length)
    (short : offset + length < 2 ^ 64) (empty : min (offset + length) entry.length = offset) :
    s.read shape crc none handle offset length = (some (.ok, []), s) := by
  rw [read, there.entry]
  dsimp only
  rw [if_neg (Nat.not_lt.mpr inside), u64_of_lt short, if_pos empty]

theorem block_lt (rounds : length + shape.blockSize ≤ 2 ^ 64) (below : b * shape.blockSize < length) :
    (b + 1) * shape.blockSize < 2 ^ 64 := by
  rw [Nat.add_one_mul]
  omega

theorem read_blocks {stop : Nat} (there : s.At handle chunk sums entry)
    (size : entry.length ≤ chunk.length)
    (rounds : ∀ b, b * shape.blockSize < entry.length → (b + 1) * shape.blockSize < 2 ^ 64)
    (bounded : entry.length < 2 ^ 64) (short : offset + length < 2 ^ 64)
    (isStop : stop = min (offset + length) entry.length) (inside : offset < stop) :
    s.read shape crc none handle offset length =
      if ∀ b ∈ blocks (offset / shape.blockSize) ((stop - 1) / shape.blockSize),
          Clean shape crc chunk entry b
      then (some (.ok, (chunk.drop offset).take (stop - offset)), s)
      else (some (.checksumMismatch, []), s.markCorrupt handle) := by
  have last : sub64 stop 1 = stop - 1 := sub64_of_le (by omega) (by omega)
  obtain ⟨final, isFinal⟩ : ∃ final, final = (stop - 1) / shape.blockSize := ⟨_, rfl⟩
  obtain ⟨first, isFirst⟩ : ∃ first, first = offset / shape.blockSize := ⟨_, rfl⟩
  obtain ⟨data, isData⟩ : ∃ data, data = chunk.take entry.length := ⟨_, rfl⟩
  have width : data.length = entry.length := by
    rw [isData, List.length_take]
    omega
  have least : first * shape.blockSize ≤ offset := isFirst ▸ Nat.div_mul_le_self _ _
  have below : final * shape.blockSize < stop := by
    have := Nat.div_mul_le_self (stop - 1) shape.blockSize
    rw [← isFinal] at this
    omega
  have above : stop ≤ (final + 1) * shape.blockSize := by
    have := Nat.lt_mul_div_succ (stop - 1) shape.positive
    rw [← isFinal, Nat.mul_comm] at this
    omega
  have small : (final + 1) * shape.blockSize < 2 ^ 64 := rounds final (by omega)
  have ordered : first ≤ final := by
    rw [isFirst, isFinal]
    exact Nat.div_le_div_right (by omega)
  rw [read, there.entry]
  dsimp only
  rw [if_neg (by omega), u64_of_lt short, ← isStop, if_neg (by omega), last, ← isFirst, ← isFinal]
  by_cases missing : entry.checksums.length ≤ final
  · rw [if_pos missing, if_neg]
    intro clean
    have wrong := clean final (mem_blocks.mpr ⟨ordered, Nat.le_refl _⟩)
    rw [Clean, List.getElem?_eq_none missing] at wrong
    cases wrong
  · obtain ⟨buf, isBuf⟩ : ∃ buf : Bytes, buf = (data.drop (first * shape.blockSize)).take
      (min ((final + 1) * shape.blockSize) data.length - first * shape.blockSize) := ⟨_, rfl⟩
    have window : buf.length = min ((final + 1) * shape.blockSize) data.length -
        first * shape.blockSize := by
      rw [isBuf, List.length_take, List.length_drop]
      omega
    have loaded : preadAll none 0 (s.chunkFile handle)
        (min ((final + 1) * shape.blockSize) entry.length - first * shape.blockSize)
        (first * shape.blockSize) = some buf := by
      have cut : buf = (chunk.drop (first * shape.blockSize)).take
          (min ((final + 1) * shape.blockSize) entry.length - first * shape.blockSize) := by
        have whole : min (min ((final + 1) * shape.blockSize) entry.length - first * shape.blockSize)
            (entry.length - first * shape.blockSize) =
            min ((final + 1) * shape.blockSize) entry.length - first * shape.blockSize := by omega
        rw [isBuf, width, isData, List.drop_take, List.take_take, whole]
      rw [there.chunkFile, cut, preadAll, if_neg (by omega), if_neg (by simp [Fault.stops]),
        if_pos (by omega)]
    rw [if_neg missing, u64_of_lt small, if_neg (by omega), loaded]
    dsimp only
    have all : ((blocks first final).all fun b => decide (entry.checksums[b]? =
          some (blockCrc shape crc buf (first * shape.blockSize) b))) = true ↔
        ∀ b ∈ blocks first final, Clean shape crc chunk entry b := by
      rw [List.all_eq_true]
      refine forall₂_congr fun b member => ?_
      obtain ⟨from_, upTo⟩ := mem_blocks.mp member
      rw [decide_eq_true_eq, isBuf, blockCrc_eq (by omega) from_ upTo, isData]
      rfl
    by_cases clean : ∀ b ∈ blocks first final, Clean shape crc chunk entry b
    · have wrap : sub64 stop offset = stop - offset := sub64_of_le (by omega) (by omega)
      have enough : ¬ buf.length < offset - first * shape.blockSize := by omega
      rw [if_pos (all.mpr clean), if_pos clean, if_neg enough, wrap]
      refine congrArg (fun out => (some (ResultCode.ok, out), s)) (ext_getD (z := 0) ?_ fun p small => ?_)
      · rw [List.length_take, List.length_drop, List.length_take, List.length_drop, window]
        omega
      · rw [List.length_take, List.length_drop, window] at small
        have position : first * shape.blockSize + (offset - first * shape.blockSize + p) =
            offset + p := by omega
        have kept : data.getD (offset + p) 0 = chunk.getD (offset + p) 0 := by
          rw [isData, getD_take, if_pos (by omega)]
        rw [getD_take, getD_drop, getD_take, getD_drop, isBuf, getD_take, getD_drop, position, kept,
          if_pos (by omega), if_pos (by omega), if_pos (by omega)]
    · rw [if_neg (fun clean' => clean (all.mp clean')), if_neg clean]

theorem read_clean (there : s.At handle chunk sums entry)
    (size : entry.length ≤ chunk.length)
    (rounds : ∀ b, b * shape.blockSize < entry.length → (b + 1) * shape.blockSize < 2 ^ 64)
    (bounded : entry.length < 2 ^ 64) (short : offset + length < 2 ^ 64) (inside : offset ≤ entry.length)
    (clean : ∀ b, b * shape.blockSize < entry.length → Clean shape crc chunk entry b) :
    s.read shape crc none handle offset length =
      (some (.ok, (chunk.drop offset).take (min (offset + length) entry.length - offset)), s) := by
  by_cases empty : min (offset + length) entry.length = offset
  · rw [read_empty there inside short empty, empty, Nat.sub_self, List.take_zero]
  · rw [read_blocks there size rounds bounded short rfl (by omega), if_pos]
    intro b member
    refine clean b ?_
    have upTo := Nat.mul_le_mul_right shape.blockSize (mem_blocks.mp member).2
    have least := Nat.div_mul_le_self (min (offset + length) entry.length - 1) shape.blockSize
    omega

theorem read_dirty (there : s.At handle chunk sums entry)
    (size : entry.length ≤ chunk.length)
    (rounds : ∀ b, b * shape.blockSize < entry.length → (b + 1) * shape.blockSize < 2 ^ 64)
    (bounded : entry.length < 2 ^ 64) (short : offset + length < 2 ^ 64)
    (inside : offset < min (offset + length) entry.length)
    (from_ : offset / shape.blockSize ≤ b)
    (upTo : b ≤ (min (offset + length) entry.length - 1) / shape.blockSize)
    (wrong : ¬ Clean shape crc chunk entry b) :
    s.read shape crc none handle offset length =
      (some (.checksumMismatch, []), s.markCorrupt handle) := by
  rw [read_blocks there size rounds bounded short rfl inside, if_neg]
  exact fun clean => wrong (clean b (mem_blocks.mpr ⟨from_, upTo⟩))

theorem rounds_of_file (bounded : entry.length ≤ 2 ^ 63) (below : b * shape.blockSize < entry.length) :
    (b + 1) * shape.blockSize < 2 ^ 64 := by
  have small := shape.blockSize_lt
  rw [Nat.add_one_mul]
  rcases Nat.eq_zero_or_pos b with none | some
  · rw [none, Nat.zero_mul]
    omega
  · have least := Nat.le_mul_of_pos_left shape.blockSize some
    omega

/-- Every byte that is returned lies in a block that is right, whatever the range is. -/
theorem read_ok {out : Bytes} (there : s.At handle chunk sums entry)
    (size : entry.length ≤ chunk.length) (bounded : entry.length ≤ 2 ^ 63)
    (count : entry.checksums.length ≤ (2 ^ 64 - 1) / shape.blockSize)
    (ok : (s.read shape crc fault handle offset length).1 = some (.ok, out)) {i : Nat}
    (inside : i < out.length) :
    offset + i < entry.length ∧ Clean shape crc chunk entry ((offset + i) / shape.blockSize) ∧
      out.getD i 0 = chunk.getD (offset + i) 0 := by
  obtain ⟨stop, isStop⟩ : ∃ stop, stop = min (u64 (offset + length)) entry.length := ⟨_, rfl⟩
  obtain ⟨data, isData⟩ : ∃ data, data = chunk.take entry.length := ⟨_, rfl⟩
  have width : data.length = entry.length := by
    rw [isData, List.length_take]
    omega
  rw [read, there.entry] at ok
  dsimp only at ok
  rw [← isStop] at ok
  split at ok
  · cases ok
  split at ok
  · cases ok
    exact absurd inside (Nat.not_lt_zero i)
  split at ok
  · cases ok
  · rename_i known
    have some : stop ≠ 0 := by
      intro zero
      have wrapped : sub64 0 1 = 2 ^ 64 - 1 := by
        rw [sub64, u64]
        omega
      rw [zero, wrapped] at known
      exact known count
    have last : sub64 stop 1 = stop - 1 := sub64_of_le (by omega) (by omega)
    rw [last] at known ok
    obtain ⟨final, isFinal⟩ : ∃ final, final = (stop - 1) / shape.blockSize := ⟨_, rfl⟩
    obtain ⟨first, isFirst⟩ : ∃ first, first = offset / shape.blockSize := ⟨_, rfl⟩
    have least : first * shape.blockSize ≤ offset := isFirst ▸ Nat.div_mul_le_self _ _
    have below : final * shape.blockSize < stop := by
      have := Nat.div_mul_le_self (stop - 1) shape.blockSize
      rw [← isFinal] at this
      omega
    have small : (final + 1) * shape.blockSize < 2 ^ 64 := rounds_of_file bounded (by omega)
    rw [← isFinal, ← isFirst, u64_of_lt small] at ok
    split at ok
    · cases ok
    split at ok
    · cases ok
    · rename_i buf loaded
      have isBuf : buf = (data.drop (first * shape.blockSize)).take
          (min ((final + 1) * shape.blockSize) data.length - first * shape.blockSize) := by
        have whole : min (min ((final + 1) * shape.blockSize) entry.length - first * shape.blockSize)
            (entry.length - first * shape.blockSize) =
            min ((final + 1) * shape.blockSize) entry.length - first * shape.blockSize := by omega
        rw [preadAll, there.chunkFile] at loaded
        split at loaded
        · rename_i none
          rw [← Option.some.inj loaded, width, none, List.take_zero]
        split at loaded
        · cases loaded
        split at loaded
        · rw [← Option.some.inj loaded, width, isData, List.drop_take, List.take_take, whole]
        · cases loaded
      have window : buf.length = min ((final + 1) * shape.blockSize) data.length -
          first * shape.blockSize := by
        rw [isBuf, List.length_take, List.length_drop]
        omega
      split at ok
      · rename_i all
        split at ok
        · cases ok
        · cases ok
          rw [List.length_take, List.length_drop, window] at inside
          have part := (Nat.lt_min.mp inside).2
          have reach : offset + i < min ((final + 1) * shape.blockSize) data.length := by
            clear inside known count below small bounded isFinal isFirst size
            omega
          obtain ⟨limit, inData⟩ := Nat.lt_min.mp reach
          have from_ : first ≤ (offset + i) / shape.blockSize :=
            (Nat.le_div_iff_mul_le shape.positive).mpr (least.trans (Nat.le_add_right _ _))
          have upTo : (offset + i) / shape.blockSize ≤ final :=
            Nat.le_of_lt_succ ((Nat.div_lt_iff_lt_mul shape.positive).mpr limit)
          have clean := of_decide_eq_true
            (List.all_eq_true.mp all _ (mem_blocks.mpr ⟨from_, upTo⟩))
          rw [width] at inData
          have lastIn : final * shape.blockSize < data.length := by
            rw [width]
            exact below.trans_le (isStop ▸ Nat.min_le_right _ _)
          rw [isBuf, blockCrc_eq lastIn from_ upTo, isData] at clean
          have skip : first * shape.blockSize + (offset - first * shape.blockSize) = offset :=
            Nat.add_sub_cancel' least
          have position : first * shape.blockSize + (offset - first * shape.blockSize + i) =
              offset + i := by rw [← Nat.add_assoc, skip]
          have kept : data.getD (offset + i) 0 = chunk.getD (offset + i) 0 := by
            rw [isData, getD_take, if_pos inData]
          refine ⟨inData, clean, ?_⟩
          rw [getD_take, getD_drop, isBuf, getD_take, getD_drop, position, kept,
            if_pos (Nat.lt_min.mp inside).1, if_pos]
          clear inside known count below small bounded isFinal isFirst size
          omega
      · cases ok

theorem read_congr (there : s.At handle chunk sums entry) (there' : t.At handle chunk sums' entry')
    (size : chunk.length = entry.length) (size' : entry'.length = entry.length)
    (short : offset + length < 2 ^ 64)
    (same : ∀ b, b * shape.blockSize < entry.length → b < entry'.checksums.length →
      entry.checksums[b]? = entry'.checksums[b]?)
    (unsure : ∀ b, b * shape.blockSize < entry.length → entry'.checksums.length ≤ b →
      ∀ c, entry.checksums[b]? = some c →
        ¬ Clean shape crc chunk entry b ∧ entry.length + shape.blockSize ≤ 2 ^ 64) :
    (s.read shape crc none handle offset length).1 =
      (t.read shape crc none handle offset length).1 := by
  rcases Nat.lt_or_ge entry.length offset with beyond | within
  · rw [read_outside there beyond, read_outside there' (size' ▸ beyond)]
  by_cases empty : min (offset + length) entry.length = offset
  · rw [read_empty there within short empty, read_empty there' (size' ▸ within) short (size' ▸ empty)]
  obtain ⟨stop, isStop⟩ : ∃ stop, stop = min (offset + length) entry.length := ⟨_, rfl⟩
  have last : sub64 stop 1 = stop - 1 := sub64_of_le (by omega) (by omega)
  have least := Nat.div_mul_le_self (stop - 1) shape.blockSize
  have unknown : ∀ {u : Store} {sums : Bytes} {e : Entry}, u.At handle chunk sums e →
      e.length = entry.length → e.checksums.length ≤ (stop - 1) / shape.blockSize →
      (u.read shape crc none handle offset length).1 = some (.checksumMismatch, []) := by
    intro u sums e there size missing
    rw [read, there.entry]
    dsimp only
    rw [size, if_neg (by omega), u64_of_lt short, ← isStop, if_neg (by omega), last, if_pos missing]
  rcases Nat.lt_or_ge ((stop - 1) / shape.blockSize) entry'.checksums.length with known | gone
  · -- the blocks that the read checks have the same checksums in both
    have agree : ∀ b ≤ (stop - 1) / shape.blockSize, entry.checksums[b]? = entry'.checksums[b]? := by
      intro b upTo
      have below := Nat.mul_le_mul_right shape.blockSize upTo
      exact same b (by omega) (by omega)
    have known' : ¬ entry.checksums.length ≤ (stop - 1) / shape.blockSize := by
      intro missing
      have here := agree _ (Nat.le_refl _)
      rw [List.getElem?_eq_none missing, List.getElem?_eq_getElem known] at here
      cases here
    have all : ∀ (buf : Bytes) (start : Nat),
        ((blocks (offset / shape.blockSize) ((stop - 1) / shape.blockSize)).all fun b =>
          decide (entry.checksums[b]? = some (blockCrc shape crc buf start b))) =
        ((blocks (offset / shape.blockSize) ((stop - 1) / shape.blockSize)).all fun b =>
          decide (entry'.checksums[b]? = some (blockCrc shape crc buf start b))) := by
      intro buf start
      refine Bool.eq_iff_iff.mpr ?_
      rw [List.all_eq_true, List.all_eq_true]
      refine forall₂_congr fun b member => ?_
      rw [agree b (mem_blocks.mp member).2]
    rw [read, read, there.entry, there'.entry]
    dsimp only
    rw [size', u64_of_lt short, ← isStop, last, there.chunkFile, there'.chunkFile, if_neg known',
      if_neg (Nat.not_le.mpr known)]
    simp only [all]
    split_ifs <;> first | rfl | skip
    all_goals
      cases preadAll none 0 chunk _ _ with
      | none => rfl
      | some buf =>
          dsimp only
          split_ifs <;> rfl
  · rw [unknown there' size' gone]
    by_cases missing : entry.checksums.length ≤ (stop - 1) / shape.blockSize
    · exact unknown there rfl missing
    · have found := List.getElem?_eq_getElem (Nat.lt_of_not_le missing)
      obtain ⟨wrong, rounds⟩ := unsure _ (by omega) gone _ found
      have positive := shape.positive
      rw [read_dirty there size.ge (fun _ => block_lt rounds) (by omega) short (by omega)
        (Nat.div_le_div_right (by omega)) (Nat.le_of_eq (by rw [isStop])) wrong]

end Store

end Gfs.Chunkserver.Disk
