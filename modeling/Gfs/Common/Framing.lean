import Gfs.Common.Base
import Mathlib.Data.List.Basic

/-!
# `common/framing.cc`

A record in a file is its length, its checksum and its payload. `DecodeRecords` reads frames until
one is torn. What was decoded stays decoded when the file grows (`decodeRecords_mono`), and a file
of whole frames that is cut anywhere decodes to the first of their payloads (`decodeRecords_cut`).
`crc` is `Crc32`.
-/

namespace Gfs.Framing

def putU32 (v : UInt32) : Bytes :=
  (List.range 4).map fun i => (v >>> UInt32.ofNat (8 * i)).toUInt8

def getU32 (p : Bytes) : UInt32 :=
  (List.range 4).foldl (fun v i => v ||| ((p.getD i 0).toUInt32 <<< UInt32.ofNat (8 * i))) 0

theorem length_putU32 (v : UInt32) : (putU32 v).length = 4 := rfl

theorem getU32_putU32 (v : UInt32) (rest : Bytes) : getU32 (putU32 v ++ rest) = v := by
  apply UInt32.toBitVec_inj.mp
  simp only [getU32, putU32, List.range, List.range.loop, List.map_cons, List.map_nil,
    List.foldl_cons, List.foldl_nil, List.cons_append, List.getD_cons_zero, List.getD_cons_succ]
  apply BitVec.eq_of_getLsbD_eq
  intro i inside
  simp only [UInt32.toBitVec_or, UInt32.toBitVec_shiftLeft, UInt8.toBitVec_toUInt32,
    UInt32.toBitVec_toUInt8, UInt32.toBitVec_shiftRight, BitVec.getLsbD_or]
  simp [BitVec.getLsbD_setWidth, -BitVec.setWidth_ushiftRight]
  grind

def kFrameHeaderSize : Nat := 8

structure DecodedRecords where
  payloads : List Bytes := []
  consumed : Nat := 0
  tornTail : Bool := false

variable (crc : Bytes → UInt32)

def encodeRecord (payload : Bytes) : Bytes :=
  putU32 (UInt32.ofNat payload.length) ++ putU32 (crc payload) ++ payload

/-- The loop of `DecodeRecords` over the bytes from `pos` on, in at most as many rounds. -/
def decodeLoop : Nat → Bytes → DecodedRecords
  | 0, rest => { tornTail := !rest.isEmpty }
  | rounds + 1, rest =>
      if rest.length < kFrameHeaderSize then { tornTail := !rest.isEmpty }
      else
        let len := (getU32 rest).toNat
        let payload := (rest.drop kFrameHeaderSize).take len
        if rest.length < kFrameHeaderSize + len ∨ crc payload ≠ getU32 (rest.drop 4) then
          { tornTail := true }
        else
          let later := decodeLoop rounds (rest.drop (kFrameHeaderSize + len))
          { payloads := payload :: later.payloads
            consumed := kFrameHeaderSize + len + later.consumed
            tornTail := later.tornTail }

def decodeRecords (bytes : Bytes) : DecodedRecords := decodeLoop crc bytes.length bytes

section
variable {crc} {bytes rest payload : Bytes} {payloads : List Bytes}

theorem decodeLoop_rounds {n m : Nat} (enough : rest.length ≤ n) (enough' : rest.length ≤ m) :
    decodeLoop crc n rest = decodeLoop crc m rest := by
  induction n generalizing m rest with
  | zero =>
      obtain rfl := List.eq_nil_of_length_eq_zero (Nat.le_zero.mp enough)
      cases m <;> rfl
  | succ n ih =>
      cases m with
      | zero =>
          obtain rfl := List.eq_nil_of_length_eq_zero (Nat.le_zero.mp enough')
          rfl
      | succ m =>
          unfold decodeLoop
          split
          · rfl
          · dsimp only
            split
            · rfl
            · rw [ih (m := m)]
              all_goals
                rw [List.length_drop, kFrameHeaderSize]
                omega

/-- The first frame of a file, if it has a whole one. -/
def firstFrame (crc : Bytes → UInt32) (bytes : Bytes) : Option Bytes :=
  let len := (getU32 bytes).toNat
  let payload := (bytes.drop kFrameHeaderSize).take len
  if bytes.length < kFrameHeaderSize then none
  else if bytes.length < kFrameHeaderSize + len ∨ crc payload ≠ getU32 (bytes.drop 4) then none
  else some payload

theorem length_firstFrame (found : firstFrame crc bytes = some payload) :
    kFrameHeaderSize + payload.length ≤ bytes.length ∧
      payload = (bytes.drop kFrameHeaderSize).take payload.length := by
  unfold firstFrame at found
  dsimp only at found
  split at found
  · cases found
  · split at found
    · cases found
    case isFalse whole =>
      obtain ⟨inside, -⟩ := not_or.mp whole
      cases found
      rw [List.length_take, List.length_drop]
      refine ⟨by omega, ?_⟩
      congr 1
      omega

theorem decodeRecords_none (none : firstFrame crc bytes = none) :
    decodeRecords crc bytes = { tornTail := !bytes.isEmpty } := by
  unfold decodeRecords
  cases bytes with
  | nil => rfl
  | cons byte bytes =>
      unfold firstFrame at none
      rw [List.length_cons, decodeLoop]
      split
      · rfl
      case isFalse header =>
        rw [if_neg header] at none
        dsimp only at none ⊢
        split
        · rfl
        case isFalse whole => rw [if_neg whole] at none; cases none

theorem decodeRecords_some (found : firstFrame crc bytes = some payload) :
    decodeRecords crc bytes =
      let later := decodeRecords crc (bytes.drop (kFrameHeaderSize + payload.length))
      { payloads := payload :: later.payloads
        consumed := kFrameHeaderSize + payload.length + later.consumed
        tornTail := later.tornTail } := by
  obtain ⟨inside, same⟩ := length_firstFrame found
  have rounds : decodeRecords crc bytes = decodeLoop crc (bytes.length + 1) bytes :=
    decodeLoop_rounds le_rfl (Nat.le_succ _)
  have rounds' : decodeRecords crc (bytes.drop (kFrameHeaderSize + payload.length)) =
      decodeLoop crc bytes.length (bytes.drop (kFrameHeaderSize + payload.length)) :=
    decodeLoop_rounds le_rfl (by rw [List.length_drop]; omega)
  rw [rounds, rounds', decodeLoop]
  unfold firstFrame at found
  dsimp only at found ⊢
  split at found
  · cases found
  case isFalse header =>
    split at found
    · cases found
    case isFalse whole =>
      rw [if_neg header, if_neg whole]
      have len : payload.length = (getU32 bytes).toNat := by
        cases found
        rw [List.length_take, List.length_drop]
        have := (not_or.mp whole).1
        omega
      rw [len, Option.some.inj found]

theorem getU32_append (inside : 4 ≤ bytes.length) : getU32 (bytes ++ rest) = getU32 bytes := by
  have same : ∀ i < 4, (bytes ++ rest).getD i 0 = bytes.getD i 0 := by
    intro i small
    rw [List.getD_eq_getElem?_getD, List.getElem?_append_left (by omega),
      List.getD_eq_getElem?_getD]
  simp only [getU32, List.range, List.range.loop, List.foldl_cons, List.foldl_nil]
  rw [same 0 (by decide), same 1 (by decide), same 2 (by decide), same 3 (by decide)]

theorem firstFrame_append (found : firstFrame crc bytes = some payload) :
    firstFrame crc (bytes ++ rest) = some payload := by
  unfold firstFrame at found ⊢
  dsimp only at found ⊢
  split at found
  · cases found
  case isFalse header =>
    split at found
    · cases found
    case isFalse whole =>
      obtain ⟨inside, sum⟩ := not_or.mp whole
      rw [kFrameHeaderSize] at header inside
      have same : ((bytes ++ rest).drop kFrameHeaderSize).take (getU32 bytes).toNat =
          (bytes.drop kFrameHeaderSize).take (getU32 bytes).toNat := by
        rw [List.drop_append_of_le_length (by rw [kFrameHeaderSize]; omega),
          List.take_append_of_le_length (by rw [List.length_drop, kFrameHeaderSize]; omega)]
      rw [getU32_append (by omega), same, List.drop_append_of_le_length (by omega),
        getU32_append (by rw [List.length_drop]; omega), if_neg, if_neg]
      · exact found
      · rintro (outside | different)
        · rw [List.length_append, kFrameHeaderSize] at outside
          omega
        · exact sum different
      · rw [List.length_append, kFrameHeaderSize]
        omega

theorem firstFrame_of_append (found : firstFrame crc (bytes ++ rest) = some payload)
    (inside : kFrameHeaderSize + payload.length ≤ bytes.length) :
    firstFrame crc bytes = some payload := by
  have body : ((bytes ++ rest).drop kFrameHeaderSize) = bytes.drop kFrameHeaderSize ++ rest :=
    List.drop_append_of_le_length (by omega)
  have header : ((bytes ++ rest).drop 4) = bytes.drop 4 ++ rest :=
    List.drop_append_of_le_length (by rw [kFrameHeaderSize] at inside; omega)
  unfold firstFrame at found ⊢
  dsimp only at found ⊢
  rw [body, header, getU32_append (by rw [kFrameHeaderSize] at inside; omega),
    getU32_append (by rw [List.length_drop]; rw [kFrameHeaderSize] at inside; omega)] at found
  split at found
  · cases found
  · split at found
    · cases found
    case isFalse whole =>
      obtain ⟨outside, sum⟩ := not_or.mp whole
      have len : payload.length = (getU32 bytes).toNat := by
        cases found
        rw [List.length_take, List.length_append, List.length_drop]
        rw [List.length_append] at outside
        omega
      have same : (bytes.drop kFrameHeaderSize ++ rest).take (getU32 bytes).toNat =
          (bytes.drop kFrameHeaderSize).take (getU32 bytes).toNat :=
        List.take_append_of_le_length (by rw [List.length_drop]; omega)
      rw [same] at sum found
      rw [if_neg (by omega), if_neg]
      · exact found
      · rintro (outside | different)
        · omega
        · exact sum different

theorem firstFrame_encodeRecord (small : payload.length < 2 ^ 32) :
    firstFrame crc (encodeRecord crc payload ++ rest) = some payload := by
  have len : (getU32 (encodeRecord crc payload ++ rest)).toNat = payload.length := by
    rw [encodeRecord, List.append_assoc, List.append_assoc, getU32_putU32,
      UInt32.toNat_ofNat_of_lt' small]
  have body : (encodeRecord crc payload ++ rest).drop kFrameHeaderSize = payload ++ rest := rfl
  have sum : getU32 ((encodeRecord crc payload ++ rest).drop 4) = crc payload := by
    have : (encodeRecord crc payload ++ rest).drop 4 =
        putU32 (crc payload) ++ (payload ++ rest) := rfl
    rw [this, getU32_putU32]
  have length : (encodeRecord crc payload ++ rest).length =
      kFrameHeaderSize + payload.length + rest.length := by
    rw [encodeRecord]
    simp only [List.length_append, length_putU32, kFrameHeaderSize]
  unfold firstFrame
  dsimp only
  rw [len, body, sum, List.take_left, if_neg (by rw [length]; omega), if_neg]
  rintro (outside | different)
  · omega
  · exact different rfl

theorem length_encodeRecord :
    (encodeRecord crc payload).length = kFrameHeaderSize + payload.length := by
  simp only [encodeRecord, List.length_append, length_putU32, kFrameHeaderSize]

theorem decodeRecords_encodeRecord (small : payload.length < 2 ^ 32) :
    decodeRecords crc (encodeRecord crc payload ++ rest) =
      let later := decodeRecords crc rest
      { payloads := payload :: later.payloads
        consumed := kFrameHeaderSize + payload.length + later.consumed
        tornTail := later.tornTail } := by
  rw [decodeRecords_some (firstFrame_encodeRecord small), List.drop_left' length_encodeRecord]

theorem firstFrame_cut {n : Nat} (small : payload.length < 2 ^ 32)
    (part : n < (encodeRecord crc payload).length) :
    firstFrame crc ((encodeRecord crc payload).take n) = none := by
  by_contra! isSome
  obtain ⟨payload', found⟩ := Option.ne_none_iff_exists'.mp isSome
  obtain ⟨inside, -⟩ := length_firstFrame found
  have whole : firstFrame crc ((encodeRecord crc payload).take n ++
      (encodeRecord crc payload).drop n) = some payload' := firstFrame_append found
  rw [List.take_append_drop] at whole
  have whole' : firstFrame crc (encodeRecord crc payload ++ []) = some payload :=
    firstFrame_encodeRecord small
  rw [List.append_nil, whole] at whole'
  cases whole'
  rw [length_encodeRecord] at part
  rw [List.length_take] at inside
  omega

theorem decodeRecords_induction (crc : Bytes → UInt32) {motive : Bytes → Prop}
    (torn : ∀ bytes, firstFrame crc bytes = none → motive bytes)
    (frame : ∀ bytes payload, firstFrame crc bytes = some payload →
      motive (bytes.drop (kFrameHeaderSize + payload.length)) → motive bytes)
    (bytes : Bytes) : motive bytes := by
  induction size : bytes.length using Nat.strong_induction_on generalizing bytes with
  | _ n ih =>
      cases found : firstFrame crc bytes with
      | none => exact torn bytes found
      | some payload =>
          have inside := (length_firstFrame found).1
          refine frame bytes payload found (ih _ ?_ _ rfl)
          rw [List.length_drop, kFrameHeaderSize]
          rw [kFrameHeaderSize] at inside
          omega

theorem decodeRecords_append (whole : (decodeRecords crc bytes).tornTail = false) :
    decodeRecords crc (bytes ++ rest) =
      let later := decodeRecords crc rest
      { payloads := (decodeRecords crc bytes).payloads ++ later.payloads
        consumed := bytes.length + later.consumed
        tornTail := later.tornTail } := by
  induction bytes using decodeRecords_induction crc with
  | torn bytes none =>
      rw [decodeRecords_none none] at whole ⊢
      obtain rfl : bytes = [] := by simpa using whole
      simp
  | frame bytes payload found ih =>
      obtain ⟨inside, -⟩ := length_firstFrame found
      rw [decodeRecords_some found] at whole ⊢
      rw [decodeRecords_some (firstFrame_append found), List.drop_append_of_le_length inside,
        ih whole]
      simp only [List.cons_append, List.length_drop]
      congr 1
      omega

theorem decodeRecords_mono :
    (decodeRecords crc bytes).payloads <+: (decodeRecords crc (bytes ++ rest)).payloads := by
  induction bytes using decodeRecords_induction crc with
  | torn bytes none =>
      rw [decodeRecords_none none]
      exact List.nil_prefix
  | frame bytes payload found ih =>
      obtain ⟨inside, -⟩ := length_firstFrame found
      rw [decodeRecords_some found, decodeRecords_some (firstFrame_append found),
        List.drop_append_of_le_length inside]
      exact List.cons_prefix_cons.mpr ⟨rfl, ih⟩

/-- `TruncateSegment` to the valid bytes takes the torn tail off. -/
theorem decodeRecords_consumed (crc : Bytes → UInt32) (bytes : Bytes) :
    (decodeRecords crc (bytes.take (decodeRecords crc bytes).consumed)).tornTail = false ∧
      (decodeRecords crc (bytes.take (decodeRecords crc bytes).consumed)).payloads =
        (decodeRecords crc bytes).payloads := by
  induction bytes using decodeRecords_induction crc with
  | torn bytes none =>
      rw [decodeRecords_none none]
      exact ⟨rfl, rfl⟩
  | frame bytes payload found ih =>
      obtain ⟨inside, -⟩ := length_firstFrame found
      rw [decodeRecords_some found]
      dsimp only
      generalize (decodeRecords crc (bytes.drop (kFrameHeaderSize + payload.length))).consumed =
        later at ih ⊢
      have first : firstFrame crc (bytes.take (kFrameHeaderSize + payload.length + later)) =
          some payload := by
        rw [← List.take_append_drop (kFrameHeaderSize + payload.length + later) bytes] at found
        exact firstFrame_of_append found (by rw [List.length_take]; omega)
      rw [decodeRecords_some first, List.drop_take, Nat.add_sub_cancel_left]
      exact ⟨ih.1, congrArg _ ih.2⟩

def frames (crc : Bytes → UInt32) (payloads : List Bytes) : Bytes :=
  payloads.flatMap (encodeRecord crc)

theorem frames_cons :
    frames crc (payload :: payloads) = encodeRecord crc payload ++ frames crc payloads := rfl

theorem length_frames_cons : (frames crc (payload :: payloads)).length =
    kFrameHeaderSize + payload.length + (frames crc payloads).length := by
  rw [frames_cons, List.length_append, length_encodeRecord]

theorem decodeRecords_frames (crc : Bytes → UInt32) (small : ∀ payload ∈ payloads, payload.length < 2 ^ 32) :
    (decodeRecords crc (frames crc payloads)).payloads = payloads ∧
      (decodeRecords crc (frames crc payloads)).tornTail = false := by
  induction payloads with
  | nil => exact ⟨rfl, rfl⟩
  | cons payload payloads ih =>
      obtain ⟨same, whole⟩ := ih fun later member => small later (List.mem_cons_of_mem _ member)
      rw [frames_cons, decodeRecords_encodeRecord (small _ List.mem_cons_self)]
      exact ⟨congrArg _ same, whole⟩

theorem frames_append {more : List Bytes} :
    frames crc (payloads ++ more) = frames crc payloads ++ frames crc more := List.flatMap_append

/-- The number of frames that lie in the first `k` bytes. -/
def wholeFrames : List Bytes → Nat → Nat
  | [], _ => 0
  | payload :: payloads, k =>
      if k < kFrameHeaderSize + payload.length then 0
      else wholeFrames payloads (k - (kFrameHeaderSize + payload.length)) + 1

theorem wholeFrames_le (payloads : List Bytes) (k : Nat) :
    wholeFrames payloads k ≤ payloads.length := by
  induction payloads generalizing k with
  | nil => exact le_rfl
  | cons payload payloads ih =>
      rw [wholeFrames]
      split
      · exact Nat.zero_le _
      · exact Nat.succ_le_succ (ih _)

theorem lt_wholeFrames {i k : Nat} (inside : i < payloads.length) :
    i < wholeFrames payloads k ↔ (frames crc (payloads.take (i + 1))).length ≤ k := by
  induction payloads generalizing i k with
  | nil => cases inside
  | cons payload payloads ih =>
      rw [wholeFrames, List.take_succ_cons, length_frames_cons]
      split
      · constructor <;> omega
      · cases i with
        | zero =>
            rw [List.take_zero, frames, List.flatMap_nil, List.length_nil]
            constructor <;> omega
        | succ i =>
            rw [Nat.add_lt_add_iff_right, ih (Nat.lt_of_succ_lt_succ inside)]
            constructor <;> omega

theorem length_wholeFrames_le (payloads : List Bytes) (k : Nat) :
    (frames crc (payloads.take (wholeFrames payloads k))).length ≤ k := by
  cases some : wholeFrames payloads k with
  | zero => exact Nat.zero_le _
  | succ j =>
      have inside := wholeFrames_le payloads k
      exact (lt_wholeFrames (by omega)).mp (by omega)

theorem wholeFrames_boundary {j : Nat} (inside : j ≤ payloads.length) :
    wholeFrames payloads (frames crc (payloads.take j)).length = j := by
  induction payloads generalizing j with
  | nil => exact (Nat.le_zero.mp inside).symm
  | cons payload payloads ih =>
      rw [wholeFrames]
      cases j with
      | zero =>
          refine if_pos ?_
          show 0 < kFrameHeaderSize + payload.length
          rw [kFrameHeaderSize]
          omega
      | succ j =>
          rw [List.take_succ_cons, length_frames_cons, if_neg (by omega), Nat.add_sub_cancel_left,
            ih (Nat.le_of_succ_le_succ inside)]

theorem decodeRecords_take (small : ∀ payload ∈ payloads, payload.length < 2 ^ 32) (k : Nat)
    (inside : k ≤ (frames crc payloads).length) :
    decodeRecords crc ((frames crc payloads).take k) =
      { payloads := payloads.take (wholeFrames payloads k)
        consumed := (frames crc (payloads.take (wholeFrames payloads k))).length
        tornTail := decide (k ≠ (frames crc (payloads.take (wholeFrames payloads k))).length) } := by
  induction payloads generalizing k with
  | nil =>
      obtain rfl : k = 0 := by simpa [frames] using inside
      rfl
  | cons payload payloads ih =>
      have first := small _ List.mem_cons_self
      rw [length_frames_cons] at inside
      rw [frames_cons, wholeFrames]
      obtain part | whole := Nat.lt_or_ge k (kFrameHeaderSize + payload.length)
      · have torn : (!((encodeRecord crc payload).take k).isEmpty) = decide (k ≠ 0) := by
          cases k with
          | zero => rfl
          | succ k => rfl
        rw [List.take_append_of_le_length (by rw [length_encodeRecord]; omega),
          decodeRecords_none (firstFrame_cut first (by rw [length_encodeRecord]; omega)),
          if_pos part, torn]
        rfl
      · have later := ih (fun other member => small other (List.mem_cons_of_mem _ member))
          (k - (kFrameHeaderSize + payload.length)) (by omega)
        rw [if_neg (by omega), List.take_append, length_encodeRecord, List.take_of_length_le
          (by rw [length_encodeRecord]; omega), decodeRecords_encodeRecord first, later,
          List.take_succ_cons, length_frames_cons]
        simp only [DecodedRecords.mk.injEq, true_and]
        congr 1
        refine propext (not_congr ?_)
        omega

theorem decodeRecords_cut (crc : Bytes → UInt32)
    (small : ∀ payload ∈ payloads, payload.length < 2 ^ 32) (n : Nat) :
    (decodeRecords crc ((frames crc payloads).take n)).payloads <+: payloads := by
  obtain inside | beyond := Nat.le_total n (frames crc payloads).length
  · rw [decodeRecords_take small n inside]
    exact List.take_prefix _ _
  · rw [List.take_of_length_le beyond]
    exact ⟨[], by rw [List.append_nil, (decodeRecords_frames crc small).1]⟩

/-- The first `k` bytes of a log decode to the records that lie whole inside them. Cut to what was
consumed, the log can be written on. -/
theorem decodeRecords_truncated (small : ∀ payload ∈ payloads, payload.length < 2 ^ 32) {k : Nat}
    (inside : k ≤ (frames crc payloads).length) :
    ∃ j ≤ payloads.length,
      (∀ i < payloads.length, i < j ↔ (frames crc (payloads.take (i + 1))).length ≤ k) ∧
      (decodeRecords crc ((frames crc payloads).take k)).payloads = payloads.take j ∧
      (decodeRecords crc ((frames crc payloads).take k)).consumed =
        ((payloads.take j).map fun payload => (encodeRecord crc payload).length).sum ∧
      ((decodeRecords crc ((frames crc payloads).take k)).tornTail = true ↔
        ∀ i ≤ payloads.length, k ≠ (frames crc (payloads.take i)).length) ∧
      ∀ more : List Bytes, (∀ payload ∈ more, payload.length < 2 ^ 32) →
        let cut := ((frames crc payloads).take k).take
          (decodeRecords crc ((frames crc payloads).take k)).consumed
        (decodeRecords crc (cut ++ frames crc more)).payloads = payloads.take j ++ more ∧
          (decodeRecords crc (cut ++ frames crc more)).tornTail = false := by
  refine ⟨wholeFrames payloads k, wholeFrames_le payloads k, fun i => lt_wholeFrames, ?_⟩
  have decoded := decodeRecords_take small k inside
  have le : (frames crc (payloads.take (wholeFrames payloads k))).length ≤ k :=
    length_wholeFrames_le payloads k
  refine ⟨by rw [decoded], by rw [decoded, frames, List.length_flatMap], ?_, fun more short => ?_⟩
  · rw [decoded, decide_eq_true_iff]
    constructor
    · rintro torn i within rfl
      rw [wholeFrames_boundary within] at torn
      exact torn rfl
    · exact fun never => never _ (wholeFrames_le payloads k)
  · have whole : frames crc payloads = frames crc (payloads.take (wholeFrames payloads k)) ++
        frames crc (payloads.drop (wholeFrames payloads k)) := by
      rw [← frames_append, List.take_append_drop]
    have cut : ((frames crc payloads).take k).take
        (decodeRecords crc ((frames crc payloads).take k)).consumed =
          frames crc (payloads.take (wholeFrames payloads k)) := by
      rw [decoded, List.take_take, Nat.min_eq_left le, whole, List.take_left]
    dsimp only
    rw [cut, ← frames_append]
    refine decodeRecords_frames _ fun payload member => ?_
    rcases List.mem_append.mp member with old | new
    · exact small payload (List.mem_of_mem_take old)
    · exact short payload new

end

/-- `Crc32` of the empty string and of "a". -/
def sampleCrc (bytes : Bytes) : UInt32 := if bytes = [] then 0 else 0xe8b7be43

/-- The cut goes through the header of the second frame. -/
theorem decodeRecords_truncated_header :
    ∃ j ≤ 2, (decodeRecords sampleCrc ((frames sampleCrc [[0x61], []]).take 13)).payloads =
        [[0x61], []].take j ∧
      (decodeRecords sampleCrc ((frames sampleCrc [[0x61], []]).take 13)).consumed =
        (([[0x61], []].take j).map fun payload => (encodeRecord sampleCrc payload).length).sum := by
  obtain ⟨j, le, -, payloads, consumed, -⟩ := @decodeRecords_truncated sampleCrc
    [[0x61], []] (by decide) 13 (by decide)
  exact ⟨j, le, payloads, consumed⟩

end Gfs.Framing
