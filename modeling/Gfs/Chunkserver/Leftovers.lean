import Gfs.Chunkserver.Rescan

/-!
# What a failed `Create` leaves

`OpenEntry` takes the chunk file back when it cannot make the meta file. From then on nothing is
taken back: a fault in the version header, in the copy or in a `fsync` leaves both files.
-/

namespace Gfs.Chunkserver.Disk.Store
open Lib.Maps Lib.Overlay

/-- The system call that fails, and whether the `unlink` of `OpenEntry` does its work. -/
structure Weather where
  fault : Fault := none
  unlinks : Bool := true

inductive NewChunk
  | create
  | createCopy (copyFrom : Handle)

section
variable (shape : Shape) (weather : Weather) (s : Store) (new : NewChunk) (handle : Handle)

/-- The call comes as far as the new chunk file. -/
def makesChunk : Bool :=
  !s.entries.contains handle &&
    (match new with
      | .create => true
      | .createCopy copyFrom => s.entries.contains copyFrom) &&
    !s.chunks.contains handle && (weather.fault.stops 0).isNone

def refusesMeta : Bool := s.metas.contains handle || (weather.fault.stops 1).isSome

def attempt (version : UInt64) : ResultCode × Store :=
  if s.makesChunk weather new handle && s.refusesMeta weather handle && !weather.unlinks then
    (.failed, s.setChunk handle [])
  else match new with
    | .create => s.create weather.fault handle version
    | .createCopy copyFrom => s.createCopy weather.fault handle version copyFrom

/-- A fault after the meta file: in the header, in the copy of the bytes, which the source's file
must have, in the copy of the checksums, or in a `fsync`. -/
def failsLate : Bool :=
  (weather.fault.stops 2).isSome || (weather.fault.stops 3).isSome ||
    match new with
    | .create => false
    | .createCopy copyFrom =>
        match s.entries[copyFrom]? with
        | none => false
        | some source =>
            (source.length ≠ 0 && (weather.fault.stops 4).isSome) ||
              (s.chunkFile copyFrom).length < source.length ||
              (source.checksums ≠ [] && (weather.fault.stops 5).isSome) ||
              (weather.fault.stops 6).isSome || (weather.fault.stops 7).isSome

/-- The call makes a file that it does not take back and cannot finish. -/
def leavesFiles : Bool :=
  s.makesChunk weather new handle &&
    (if s.refusesMeta weather handle then !weather.unlinks else s.failsLate weather new)

/-- A call without success has changed nothing: not the store, not what a later `Create` answers,
not what a restart lists. -/
def Traceless (result : ResultCode × Store) : Prop :=
  result.1 ≠ .ok → result.2 = s ∧
    (∀ version, (result.2.create none handle version).1 = (s.create none handle version).1) ∧
    (scan shape result.2.toDirectory).list = (scan shape s.toDirectory).list

end

section
variable {shape : Shape} {weather : Weather} {s : Store} {handle : Handle} {version : UInt64}

theorem openNew_blocked {fault : Fault} (blocked : s.chunks.contains handle = true ∨
    (fault.stops 0).isSome = true ∨ s.metas.contains handle = true ∨
    (fault.stops 1).isSome = true) : s.openNew fault handle version = (none, s) := by
  unfold openNew
  split
  · rfl
  · rename_i made
    rw [if_pos]
    simp only [Bool.or_eq_true] at made ⊢
    tauto

theorem openNew_made {fault : Fault} (chunk : s.chunks.contains handle = false)
    (made : (fault.stops 0).isSome = false) (sums : s.metas.contains handle = false)
    (made' : (fault.stops 1).isSome = false) :
    ∃ file, (s.openNew fault handle version) =
      (if (fault.stops 2).isSome || (fault.stops 3).isSome then none else some { version },
        (s.setChunk handle []).setMeta handle file) := by
  unfold openNew
  rw [if_neg (by simp [chunk, made]), if_neg (by simp [sums, made'])]
  have filled : encodeU64 version ≠ [] := by simp [encodeU64]
  refine ⟨(pwriteAll fault 2 [] 0 (encodeU64 version)).2, ?_⟩
  unfold pwriteAll
  rw [if_neg filled]
  cases fault.stops 2 with
  | some bytes => rfl
  | none =>
      dsimp only
      cases fault.stops 3 with
      | some bytes => rfl
      | none => rfl

theorem copyLoop_short {source : Bytes} {stop : Nat} (fuel : Nat) {target : Bytes} {done : Nat}
    (short : source.length < stop) (enough : stop - done ≤ fuel) (inside : done ≤ source.length) :
    (copyLoop source stop fuel target done).1 = false := by
  induction fuel generalizing target done with
  | zero => omega
  | succ fuel ih =>
      rw [copyLoop, if_pos (by omega)]
      dsimp only
      split
      · rfl
      · rename_i buf read
        have positive : 0 < bufferSize := by decide
        rw [preadAll, if_neg (by omega), if_neg (by simp [Fault.stops])] at read
        split at read
        · exact ih (by omega) (by omega)
        · cases read

theorem create_spec (fresh : s.entries.contains handle = false)
    (chunk : s.chunks.contains handle = false) (made : (weather.fault.stops 0).isSome = false)
    (sums : s.metas.contains handle = false) (made' : (weather.fault.stops 1).isSome = false) :
    ∃ t : Store, t.chunks.contains handle = true ∧ s.create weather.fault handle version =
      (if s.failsLate weather .create then .failed else .ok, t) := by
  obtain ⟨file, opened⟩ := @openNew_made s handle version _ chunk made sums made'
  unfold create failsLate
  rw [if_neg (by simp [fresh]), opened, Bool.or_false]
  cases (weather.fault.stops 2).isSome || (weather.fault.stops 3).isSome with
  | true =>
      refine ⟨_, ?_, rfl⟩
      exact Std.ExtTreeMap.contains_insert_self
  | false =>
      refine ⟨_, ?_, rfl⟩
      exact Std.ExtTreeMap.contains_insert_self

theorem copied_eq {file : Bytes} {length : Nat} {fault : Fault} {stop : Nat}
    (isStop : stop = ((fault.stops 4).map (min length)).getD length) :
    (!(copyLoop file stop stop [] 0).1 || (length ≠ 0 && (fault.stops 4).isSome)) =
      ((length ≠ 0 && (fault.stops 4).isSome) || file.length < length) := by
  cases stopped : decide (length ≠ 0) && (fault.stops 4).isSome with
  | true => rw [Bool.or_true, Bool.true_or]
  | false =>
      have whole : stop = length := by
        rw [Bool.and_eq_false_iff, decide_eq_false_iff_not, not_not] at stopped
        rcases stopped with zero | quiet
        · rw [isStop, zero]
          cases fault.stops 4 with
          | none => rfl
          | some bytes => exact Nat.zero_min bytes
        · rw [isStop, Option.isSome_eq_false_iff.mp quiet |> Option.isNone_iff_eq_none.mp]
          rfl
      rw [Bool.or_false, Bool.false_or, whole]
      by_cases short : file.length < length
      · rw [copyLoop_short length short (by omega) (Nat.zero_le _)]
        simp [short]
      · have all : copyLoop file length length [] 0 = (true, file.take length) :=
          copyLoop_eq length (Nat.le_of_not_lt short) (by omega) (Nat.zero_le _) rfl
        rw [all]
        simp [short]

theorem pwriteAll_ok {fault : Fault} {call offset : Nat} {file data : Bytes} :
    (!(pwriteAll fault call file offset data).1) =
      (decide (data ≠ []) && (fault.stops call).isSome) := by
  unfold pwriteAll
  split
  · rename_i empty
    simp [empty]
  · rename_i filled
    cases fault.stops call with
    | some bytes => simp [filled]
    | none => simp

theorem createCopy_spec {copyFrom : Handle} (fresh : s.entries.contains handle = false)
    (source : s.entries.contains copyFrom = true)
    (chunk : s.chunks.contains handle = false) (made : (weather.fault.stops 0).isSome = false)
    (sums : s.metas.contains handle = false) (made' : (weather.fault.stops 1).isSome = false) :
    ∃ t : Store, t.chunks.contains handle = true ∧
      s.createCopy weather.fault handle version copyFrom =
        (if s.failsLate weather (.createCopy copyFrom) then .failed else .ok, t) := by
  obtain ⟨file, opened⟩ := @openNew_made s handle version _ chunk made sums made'
  obtain ⟨entry, found⟩ : ∃ entry, s.entries[copyFrom]? = some entry := by
    rw [Std.ExtTreeMap.contains_eq_isSome_getElem?] at source
    exact Option.isSome_iff_exists.mp source
  obtain ⟨stop, isStop⟩ : ∃ stop, stop =
    ((weather.fault.stops 4).map (min entry.length)).getD entry.length := ⟨_, rfl⟩
  have copied := @copied_eq (s.chunkFile copyFrom) entry.length weather.fault stop isStop
  have nonempty : decide (entry.checksums ≠ []) =
      decide (entry.checksums.flatMap encodeU32 ≠ []) := by
    cases entry.checksums with
    | nil => rfl
    | cons c rest => simp [encodeU32]
  unfold createCopy failsLate
  simp only [found]
  rw [if_neg (by simp [fresh]), opened, nonempty]
  cases (weather.fault.stops 2).isSome || (weather.fault.stops 3).isSome with
  | true =>
      refine ⟨_, ?_, rfl⟩
      exact Std.ExtTreeMap.contains_insert_self
  | false =>
      rw [if_neg Bool.false_ne_true]
      dsimp only
      rw [← isStop, copied]
      cases decide (entry.length ≠ 0) && (weather.fault.stops 4).isSome ||
          decide ((s.chunkFile copyFrom).length < entry.length) with
      | true =>
          refine ⟨_, ?_, rfl⟩
          exact Std.ExtTreeMap.contains_insert_self
      | false =>
          rw [if_neg Bool.false_ne_true, pwriteAll_ok]
          simp only [Bool.false_or]
          cases decide (entry.checksums.flatMap encodeU32 ≠ []) &&
              (weather.fault.stops 5).isSome || (weather.fault.stops 6).isSome ||
                (weather.fault.stops 7).isSome with
          | true =>
              refine ⟨_, ?_, rfl⟩
              exact Std.ExtTreeMap.contains_insert_self
          | false =>
              refine ⟨_, ?_, rfl⟩
              exact Std.ExtTreeMap.contains_insert_self

/-- Where the call cannot make both files it has done nothing. -/
theorem create_refused {fault : Fault} (blocked : s.entries.contains handle = true ∨
    s.chunks.contains handle = true ∨ (fault.stops 0).isSome = true ∨
    s.metas.contains handle = true ∨ (fault.stops 1).isSome = true) :
    (s.create fault handle version).2 = s := by
  unfold create
  split
  · rfl
  · rename_i fresh
    rw [openNew_blocked (blocked.resolve_left fresh)]

theorem createCopy_refused {fault : Fault} {copyFrom : Handle}
    (blocked : s.entries.contains copyFrom = false ∨ s.entries.contains handle = true ∨
      s.chunks.contains handle = true ∨ (fault.stops 0).isSome = true ∨
      s.metas.contains handle = true ∨ (fault.stops 1).isSome = true) :
    (s.createCopy fault handle version copyFrom).2 = s := by
  unfold createCopy
  split
  · rfl
  · rename_i source found
    have there : s.entries.contains copyFrom = true := by
      rw [Std.ExtTreeMap.contains_eq_isSome_getElem?, found]
      rfl
    have blocked := blocked.resolve_left (by simp [there])
    split
    · rfl
    · rename_i fresh
      dsimp only
      rw [openNew_blocked (blocked.resolve_left fresh)]

theorem attempt_refused {new : NewChunk} (blocked : s.makesChunk weather new handle = false ∨
    s.refusesMeta weather handle = true ∧ weather.unlinks = true) :
    (s.attempt weather new handle version).2 = s := by
  unfold attempt
  rw [if_neg (by rcases blocked with none | ⟨-, unlinks⟩ <;> simp [*])]
  simp only [makesChunk, refusesMeta, Bool.and_eq_false_iff, Bool.not_eq_false', Bool.or_eq_true,
    Option.isNone_eq_false_iff] at blocked
  cases new with
  | create =>
      apply create_refused
      simp at blocked
      tauto
  | createCopy copyFrom =>
      apply createCopy_refused
      tauto

theorem attempt_late {new : NewChunk} (makes : s.makesChunk weather new handle = true)
    (sums : s.refusesMeta weather handle = false) :
    ∃ t : Store, t.chunks.contains handle = true ∧ s.attempt weather new handle version =
      (if s.failsLate weather new then .failed else .ok, t) := by
  unfold attempt
  rw [sums, Bool.and_false, Bool.false_and, if_neg Bool.false_ne_true]
  simp only [makesChunk, refusesMeta, Bool.and_eq_true, Bool.not_eq_true', Bool.or_eq_false_iff,
    Option.isNone_iff_eq_none] at makes sums
  obtain ⟨⟨⟨fresh, source⟩, chunk⟩, made⟩ := makes
  cases new with
  | create => exact create_spec fresh chunk (by simp [made]) sums.1 sums.2
  | createCopy copyFrom => exact createCopy_spec fresh source chunk (by simp [made]) sums.1 sums.2

theorem attempt_spec (new : NewChunk) :
    (s.leavesFiles weather new handle = true →
      (s.attempt weather new handle version).1 ≠ .ok ∧
        (s.attempt weather new handle version).2.chunks.contains handle = true) ∧
    (s.leavesFiles weather new handle = false →
      (s.attempt weather new handle version).1 = .ok ∨
        (s.attempt weather new handle version).2 = s) := by
  unfold leavesFiles
  cases makes : s.makesChunk weather new handle with
  | false => exact ⟨by simp, fun _ => .inr (attempt_refused (.inl makes))⟩
  | true =>
      cases refuses : s.refusesMeta weather handle with
      | true =>
          cases unlinks : weather.unlinks with
          | true => exact ⟨by simp, fun _ => .inr (attempt_refused (.inr ⟨refuses, unlinks⟩))⟩
          | false =>
              have left : s.attempt weather new handle version =
                  (.failed, s.setChunk handle []) := by
                unfold attempt
                rw [makes, refuses, unlinks]
                rfl
              rw [left]
              exact ⟨fun _ => ⟨nofun, Std.ExtTreeMap.contains_insert_self⟩, by simp⟩
      | false =>
          obtain ⟨t, there, result⟩ := @attempt_late weather s handle version new makes refuses
          rw [result]
          cases s.failsLate weather new with
          | true => exact ⟨fun _ => ⟨nofun, there⟩, by simp⟩
          | false => exact ⟨by simp, fun _ => .inl rfl⟩

/-- A failed call leaves no trace just when it does not leave files. -/
theorem attempt_traceless_iff (shape : Shape) (weather : Weather) (s : Store) (new : NewChunk)
    (handle : Handle) (version : UInt64) :
    Traceless shape s handle (s.attempt weather new handle version) ↔
      s.leavesFiles weather new handle = false := by
  obtain ⟨leaves, clean⟩ := @attempt_spec weather s handle version new
  constructor
  · intro traceless
    by_contra left
    have left : s.leavesFiles weather new handle = true := by simpa using left
    obtain ⟨bad, there⟩ := leaves left
    have absent : s.chunks.contains handle = false := by
      simp only [leavesFiles, makesChunk, Bool.and_eq_true, Bool.not_eq_true'] at left
      exact left.1.1.2
    rw [(traceless bad).1, absent] at there
    cases there
  · intro none bad
    have same := (clean none).resolve_left bad
    rw [same]
    exact ⟨rfl, fun _ => rfl, rfl⟩

/-- The `fsync` of the version header fails: a restart lists a chunk that was never created. -/
theorem attempt_leaves :
    ¬Traceless quarters {} 7 (attempt { fault := some (3, 0) } {} .create 7 1) := by
  intro traceless
  obtain ⟨-, -, same⟩ := traceless (by decide +kernel)
  have before : (scan quarters ({} : Store).toDirectory).list = [] := by decide +kernel
  have after : (scan quarters
      (attempt { fault := some (3, 0) } {} .create 7 1).2.toDirectory).list = [(7, 1, 0)] := by
    decide +kernel
  rw [before, after] at same
  cases same

end

end Gfs.Chunkserver.Disk.Store
