import Gfs.Master.OpLog

/-!
# What a sink has written

The records that have not gone to the sink are in the batch of the flusher and in the queue, in
order and numbered (`Queued`). Up to the first batch that the sink failed to write, each record is
at its place in its segment, in the bytes that a crash cannot take away (`Sunk`). `WriteBatch`
reports the batch as flushed in any case, so what is waited for may be lost from there on.
-/

namespace Gfs.Master.OpLog
open Framing Lib.Maps Lib.Transition

/-! ## Reading segments -/

def Framed (c : Codec) (record : LogRecord) (entry : Nat × Bytes) : Prop :=
  ∃ payload, c.record record = some payload ∧ entry.2 = encodeRecord c.crc payload

section
variable {c : Codec} {records : List LogRecord} {batch : List (Nat × Bytes)} {bytes rest : Bytes}

theorem readSegment_mono :
    (readSegment c bytes).records <+: (readSegment c (bytes ++ rest)).records :=
  decodeRecords_mono.filterMap _

theorem readSegment_append (rest : Bytes) (whole : (readSegment c bytes).tornTail = false) :
    (readSegment c (bytes ++ rest)).records =
        (readSegment c bytes).records ++ (readSegment c rest).records ∧
      (readSegment c (bytes ++ rest)).tornTail = (readSegment c rest).tornTail := by
  unfold readSegment at whole ⊢
  dsimp only at whole ⊢
  rw [decodeRecords_append whole]
  exact ⟨List.filterMap_append, rfl⟩

theorem readSegment_truncateTorn (c : Codec) (bytes : Bytes) :
    (readSegment c (truncateTorn c bytes)).records = (readSegment c bytes).records ∧
      (readSegment c (truncateTorn c bytes)).tornTail = false := by
  unfold truncateTorn
  dsimp only
  split
  · obtain ⟨whole, same⟩ := decodeRecords_consumed c.crc bytes
    exact ⟨congrArg (List.filterMap c.parseRecord) same, whole⟩
  case isFalse whole => exact ⟨rfl, Bool.eq_false_iff.mpr whole⟩

theorem exists_payloads (lossless : c.Lossless) (framed : List.Forall₂ (Framed c) records batch) :
    ∃ payloads, joined batch = frames c.crc payloads ∧
      (∀ payload ∈ payloads, payload.length < 2 ^ 32) ∧
      payloads.map c.parseRecord = records.map some := by
  induction framed with
  | nil => exact ⟨[], rfl, by simp, rfl⟩
  | @cons record entry records batch head tail ih =>
      obtain ⟨payload, serialized, frame⟩ := head
      obtain ⟨small, parsed⟩ := lossless.record record payload serialized
      obtain ⟨payloads, same, short, back⟩ := ih
      refine ⟨payload :: payloads, ?_, ?_, ?_⟩
      · rw [joined, List.flatMap_cons, frame]
        exact congrArg _ same
      · intro other member
        rcases List.mem_cons.mp member with rfl | later
        · exact small
        · exact short other later
      · rw [List.map_cons, List.map_cons, parsed, back]

theorem filterMap_parsed {payloads : List Bytes}
    (parsed : payloads.map c.parseRecord = records.map some) :
    payloads.filterMap c.parseRecord = records := by
  have same := congrArg (List.filterMap id) parsed
  rw [List.filterMap_map, List.filterMap_map] at same
  simpa using same

theorem readSegment_joined (lossless : c.Lossless) (framed : List.Forall₂ (Framed c) records batch) :
    (readSegment c (joined batch)).records = records ∧
      (readSegment c (joined batch)).tornTail = false := by
  obtain ⟨payloads, same, short, parsed⟩ := exists_payloads lossless framed
  obtain ⟨all, whole⟩ := decodeRecords_frames c.crc short
  unfold readSegment
  dsimp only
  rw [same, all]
  exact ⟨filterMap_parsed parsed, whole⟩

/-- A batch of which a part was written. -/
theorem readSegment_cut (lossless : c.Lossless) (framed : List.Forall₂ (Framed c) records batch)
    (n : Nat) : (readSegment c ((joined batch).take n)).records <+: records := by
  obtain ⟨payloads, same, short, parsed⟩ := exists_payloads lossless framed
  have cut := (decodeRecords_cut c.crc short n).filterMap c.parseRecord
  rw [filterMap_parsed parsed] at cut
  rw [same]
  exact cut

end

/-! ## What `Recover` finds -/

section
variable {c : Codec} {disk : Disk} {k : Nat}

theorem mem_listSegments : k ∈ disk.listSegments ↔ k ∈ disk.segments ∧ k < 10 ^ 6 := by
  rw [Disk.listSegments, List.mem_filter, Std.ExtTreeMap.mem_keys, decide_eq_true_iff]

theorem mem_listCheckpoints : k ∈ disk.listCheckpoints ↔ k ∈ disk.checkpoints ∧ k < 10 ^ 6 := by
  rw [Disk.listCheckpoints, List.mem_filter, Std.ExtTreeMap.mem_keys, decide_eq_true_iff]

theorem sorted_keys (files : Std.ExtTreeMap Nat Bytes) : files.keys.Pairwise (· < ·) :=
  Std.ExtTreeMap.ordered_keys.imp Nat.compare_eq_lt.mp

theorem sorted_listSegments (disk : Disk) : disk.listSegments.Pairwise (· < ·) :=
  (sorted_keys _).filter _

theorem sorted_listCheckpoints (disk : Disk) : disk.listCheckpoints.Pairwise (· < ·) :=
  (sorted_keys _).filter _

theorem le_getLast {numbers : List Nat} (sorted : numbers.Pairwise (· < ·)) (member : k ∈ numbers) :
    k ≤ numbers.getLast?.getD 1 := by
  obtain rfl | ⟨before, last, rfl⟩ := List.eq_nil_or_concat numbers
  · cases member
  · rw [List.concat_eq_append] at sorted member ⊢
    rw [List.getLast?_concat, Option.getD_some]
    rcases List.mem_append.mp member with early | late
    · exact ((List.pairwise_append.mp sorted).2.2 k early last (List.mem_singleton_self _)).le
    · rw [List.mem_singleton.mp late]

theorem loadLatest_listed {number : Nat} {checkpoint : Checkpoint}
    (found : loadLatest c disk = some (number, checkpoint)) : number ∈ disk.listCheckpoints := by
  obtain ⟨other, member, read⟩ := List.exists_of_findSome?_eq_some found
  obtain ⟨_, _, same⟩ := Option.map_eq_some_iff.mp read
  cases same
  exact List.mem_reverse.mp member

theorem first_lt : (loadState c disk).1 < 10 ^ 6 := by
  unfold loadState
  split
  case h_1 number checkpoint found =>
    split
    · exact (mem_listCheckpoints.mp (loadLatest_listed found)).2
    · decide
  · decide

theorem getLast_lt {numbers : List Nat} (small : ∀ k ∈ numbers, k < 10 ^ 6) :
    numbers.getLast?.getD 1 < 10 ^ 6 := by
  cases last : numbers.getLast? with
  | none => decide
  | some k => exact small k (List.mem_of_getLast? last)

theorem active_lt : (recover c disk).active < 10 ^ 6 :=
  max_lt (getLast_lt fun _ member => (mem_listSegments.mp member).2) first_lt

theorem getElem?_recover : (recover c disk).segments[k]? =
    if k ∈ disk.listSegments ∧ (loadState c disk).1 ≤ k then
      disk.segments[k]?.map (truncateTorn c)
    else disk.segments[k]? := by
  have again : ∀ bytes : Bytes, truncateTorn c (truncateTorn c bytes) = truncateTorn c bytes := by
    intro bytes
    rw [truncateTorn, if_neg]
    rw [(readSegment_truncateTorn c _).2]
    exact Bool.false_ne_true
  have seen := foldl_view (fun (segments : Std.ExtTreeMap Nat Bytes) segment =>
    segments.modify segment (truncateTorn c)) (fun segment => segment) (·[k]?)
    (fun bytes _ => bytes.map (truncateTorn c)) k
    (fun files segment same => by rw [getElem?_modify, if_pos same])
    (fun files segment different => by rw [getElem?_modify, if_neg different])
    (disk.listSegments.filter ((loadState c disk).1 ≤ ·)) disk.segments
  have twice : ∀ file : Option Bytes,
      (file.map (truncateTorn c)).map (truncateTorn c) = file.map (truncateTorn c) := by
    intro file
    rw [Option.map_map]
    exact congrArg (file.map ·) (funext again)
  refine seen.trans ((foldl_idempotent twice _ _).trans ?_)
  by_cases replayed : k ∈ disk.listSegments ∧ (loadState c disk).1 ≤ k
  · rw [if_pos replayed, if_neg]
    refine List.ne_nil_of_mem (a := k) ?_
    simp [replayed]
  · rw [if_neg replayed, if_pos]
    refine List.filter_eq_nil_iff.mpr fun other member same => replayed ?_
    obtain rfl : other = k := by simpa using same
    simpa using member

end

section
variable {c : Codec} {disk : Disk} {k : Nat}

theorem first_le_active : (loadState c disk).1 ≤ (recover c disk).active := le_max_right _ _

theorem le_active (listed : k ∈ disk.listSegments) : k ≤ (recover c disk).active :=
  Nat.le_trans (le_getLast (sorted_listSegments disk) listed) (le_max_left _ _)

theorem length_records_le {bytes : Bytes} (there : disk.segments[k]? = some bytes)
    (listed : k ∈ disk.listSegments) (first : (loadState c disk).1 ≤ k) :
    (readSegment c bytes).records.length ≤ (recover c disk).records.length := by
  have member : k ∈ disk.listSegments.filter ((loadState c disk).1 ≤ ·) := by
    simp [listed, first]
  obtain ⟨before, after, split⟩ := List.append_of_mem member
  have same : disk.segments.getD k [] = bytes := by
    rw [Std.ExtTreeMap.getD_eq_getD_getElem?, there]
    rfl
  have records : (recover c disk).records = (disk.listSegments.filter
      ((loadState c disk).1 ≤ ·)).flatMap fun segment =>
        (readSegment c (disk.segments.getD segment [])).records := rfl
  rw [records, split, List.flatMap_append, List.flatMap_cons, same]
  simp only [List.length_append]
  omega

theorem getElem?_insertIfNew_self (files : Std.ExtTreeMap Nat Bytes) (number : Nat) :
    (files.insertIfNew number [])[number]? = some ((files.insertIfNew number []).getD number []) := by
  have there : number ∈ files.insertIfNew number [] := by simp
  rw [Std.ExtTreeMap.getD_eq_getD_getElem?]
  obtain ⟨bytes, found⟩ := Option.isSome_iff_exists.mp
    (Std.ExtTreeMap.mem_iff_isSome_getElem?.mp there)
  rw [found]
  rfl

theorem opened_whole {file : Bytes} (small : ∀ segment ∈ disk.segments, segment < 10 ^ 6)
    (opened : file = ((recover c disk).segments.insertIfNew (recover c disk).active []).getD
      (recover c disk).active []) :
    (readSegment c file).tornTail = false ∧
      (readSegment c file).records.length ≤ (recover c disk).records.length ∧
      (readSegment c file).records =
        (readSegment c (disk.segments.getD (recover c disk).active [])).records := by
  have first : (loadState c disk).1 ≤ (recover c disk).active := first_le_active
  have same : file = (recover c disk).segments.getD (recover c disk).active [] := by
    rw [opened, Std.ExtTreeMap.getD_insertIfNew]
    split
    case isTrue new => rw [Std.ExtTreeMap.getD_eq_fallback new.2]
    case isFalse => rfl
  rw [Std.ExtTreeMap.getD_eq_getD_getElem?, getElem?_recover] at same
  rw [Std.ExtTreeMap.getD_eq_getD_getElem?]
  cases there : disk.segments[(recover c disk).active]? with
  | none =>
      rw [there, Option.map_none, ite_self] at same
      subst same
      exact ⟨rfl, Nat.zero_le _, rfl⟩
  | some bytes =>
      have member : (recover c disk).active ∈ disk.segments := by
        rw [Std.ExtTreeMap.mem_iff_isSome_getElem?, there]
        rfl
      have listed := mem_listSegments.mpr ⟨member, small _ member⟩
      rw [if_pos ⟨listed, first⟩, there] at same
      subst same
      obtain ⟨records, whole⟩ := readSegment_truncateTorn c bytes
      refine ⟨whole, ?_, records⟩
      exact (congrArg List.length records).trans_le (length_records_le there listed first)

end

/-! ## What waits for the sink -/

structure Queued (c : Codec) (s : State) (p : Process) : Prop where
  survived : s.survived ≤ s.written
  written : s.written ≤ s.history.length
  framed : List.Forall₂ (Framed c) (s.history.drop s.written) (p.flusher.batch ++ p.pending)
  numbered : (p.flusher.batch ++ p.pending).map (·.1) =
    List.range' (s.written - s.survived + 1) (s.history.length - s.written)
  next : s.survived + p.nextSeq = s.history.length + 1
  flushed : s.survived + p.flushedSeq = s.written
  rotating : p.flusher.rotating = true → p.pending = []
  acknowledged : s.acknowledged ≤ s.written

section
variable {c : Codec} {threshold : Nat} {s s' : State} {p p' : Process} {action : Action}

theorem lastSeq_numbered {batch pending : List (Nat × Bytes)} {first n : Nat}
    (numbered : (batch ++ pending).map (·.1) = List.range' first n) (some : batch ≠ []) :
    lastSeq batch + 1 = first + batch.length := by
  have positive := List.length_pos_iff.mpr some
  have length : batch.length + pending.length = n := by
    simpa using congrArg List.length numbered
  have last := congrArg (·[batch.length - 1]?) numbered
  simp only [List.map_append] at last
  rw [List.getElem?_append_left (by rw [List.length_map]; omega), List.getElem?_map,
    List.getElem?_range' (by omega)] at last
  rw [lastSeq, List.getLast?_eq_getElem?, last, Option.getD_some]
  omega

theorem Queued.same (queued : Queued c s p) (history : s'.history = s.history)
    (survived : s'.survived = s.survived) (written : s'.written = s.written)
    (acknowledged : s'.acknowledged = s.acknowledged)
    (queue : p'.flusher.batch ++ p'.pending = p.flusher.batch ++ p.pending)
    (rotating : p'.flusher.rotating = true → p'.pending = [])
    (nextSeq : p'.nextSeq = p.nextSeq) (flushedSeq : p'.flushedSeq = p.flushedSeq) :
    Queued c s' p' := by
  constructor
  · rw [survived, written]
    exact queued.survived
  · rw [written, history]
    exact queued.written
  · rw [history, written, queue]
    exact queued.framed
  · rw [queue, written, survived, history]
    exact queued.numbered
  · rw [survived, nextSeq, history]
    exact queued.next
  · rw [survived, flushedSeq, written]
    exact queued.flushed
  · exact rotating
  · rw [acknowledged, written]
    exact queued.acknowledged

theorem Queued.all_written (queued : Queued c s p) (opening : p.flusher = .opening) :
    s.written = s.history.length := by
  have length := queued.framed.length_eq
  have none : p.pending = [] := queued.rotating (by rw [opening]; rfl)
  rw [opening, none, List.length_drop] at length
  have le := queued.written
  change s.history.length - s.written = 0 at length
  omega

theorem Queued.restarted : ∃ p, (restart c s).process = some p ∧ Queued c (restart c s) p := by
  refine ⟨_, rfl, le_rfl, le_rfl, ?_, ?_, rfl, rfl, fun _ => rfl, le_rfl⟩
  · rw [restart]
    simp [Flusher.batch]
  · rw [restart]
    simp [Flusher.batch]

theorem Queued.wrote (queued : Queued c s p) {batch : List (Nat × Bytes)} {outcome : Outcome}
    {next : Flusher} (writing : p.flusher.batch = batch) (empty : next.batch = [])
    (rotating : next.rotating = true → p.pending = [])
    (up : (writeBatch s p batch outcome next).process = some p') :
    Queued c (writeBatch s p batch outcome next) p' := by
  have length := queued.framed.length_eq
  rw [List.length_drop, List.length_append, writing] at length
  have written := queued.written
  have survived := queued.survived
  have flushed := queued.flushed
  have numbered := queued.numbered
  have framed := queued.framed
  rw [writing] at numbered framed
  have last : s.survived + max p.flushedSeq (lastSeq batch) = s.written + batch.length := by
    by_cases none : batch = []
    · subst none
      simp only [lastSeq, List.getLast?_nil, Option.map_none, Option.getD_none, Nat.max_zero,
        List.length_nil, Nat.add_zero]
      exact flushed
    · have := lastSeq_numbered numbered none
      omega
  have process : p'.pending = p.pending ∧ p'.nextSeq = p.nextSeq ∧ p'.flusher = next ∧
      p'.flushedSeq = max p.flushedSeq (lastSeq batch) := by
    unfold writeBatch writeSink at up
    cases outcome <;> cases up <;> exact ⟨rfl, rfl, rfl, rfl⟩
  obtain ⟨pending, nextSeq, flusher, flushedSeq⟩ := process
  have record : (writeBatch s p batch outcome next).history = s.history ∧
      (writeBatch s p batch outcome next).survived = s.survived ∧
      (writeBatch s p batch outcome next).acknowledged = s.acknowledged ∧
      (writeBatch s p batch outcome next).written = s.written + batch.length := by
    unfold writeBatch writeSink
    cases outcome <;> exact ⟨rfl, rfl, rfl, rfl⟩
  obtain ⟨history, survived', acknowledged, written'⟩ := record
  constructor
  · rw [survived', written']
    omega
  · rw [written', history]
    omega
  · rw [history, written', flusher, empty, pending, List.nil_append, ← List.drop_drop]
    exact List.forall₂_drop_append _ _ _ framed
  · have later := congrArg (List.drop batch.length) numbered
    rw [List.map_append, List.drop_left' (List.length_map _), List.drop_range'] at later
    rw [flusher, empty, pending, List.nil_append, later, survived', written', history]
    congr 1 <;> omega
  · rw [survived', nextSeq, history]
    exact queued.next
  · rw [survived', flushedSeq, written']
    exact last
  · rw [flusher, pending]
    exact rotating
  · rw [acknowledged, written']
    exact Nat.le_add_right_of_le queued.acknowledged

theorem Queued.turn (queued : Queued c s p) (here : s.process = some p)
    (turn : Turn c threshold s p action s') (up : s'.process = some p') : Queued c s' p' := by
  cases turn with
  | @append record payload unlocked logged serialized =>
      cases up
      have length := queued.framed.length_eq
      have written := queued.written
      have survived := queued.survived
      have next := queued.next
      refine ⟨survived, ?_, ?_, ?_, ?_, queued.flushed, fun locked => ?_, queued.acknowledged⟩
      · simp only [List.length_append, List.length_singleton]
        omega
      · rw [List.drop_append_of_le_length written, ← List.append_assoc]
        refine List.rel_append queued.framed ?_
        exact .cons ⟨payload, serialized, rfl⟩ .nil
      · rw [← List.append_assoc, List.map_append, queued.numbered, List.length_append,
          List.length_singleton, Nat.sub_add_comm written, List.range'_concat]
        simp only [List.map_cons, List.map_nil]
        congr 2
        omega
      · simp only [List.length_append, List.length_singleton]
        omega
      · rw [unlocked] at locked
        cases locked
  | takeBatch waiting =>
      cases up
      refine queued.same rfl rfl rfl rfl ?_ (fun _ => rfl) rfl rfl
      simp [waiting, Flusher.batch]
  | write turn =>
      obtain ⟨writing, rfl⟩ | ⟨writing, rfl⟩ := turn
      · exact queued.wrote (by rw [writing]; rfl) rfl (fun locked => by cases locked) up
      · exact queued.wrote (by rw [writing]; rfl) rfl
          (fun _ => queued.rotating (by rw [writing]; rfl)) up
  | rest wrote =>
      cases up
      refine queued.same rfl rfl rfl rfl ?_ (fun locked => by cases locked) rfl rfl
      simp [wrote, Flusher.batch]
  | drain wrote long turn =>
      cases up
      refine queued.same rfl rfl rfl rfl ?_ (fun _ => rfl) rfl rfl
      obtain ⟨none, rfl⟩ | rfl := turn
      · simp [wrote, none, Flusher.batch]
      · simp [wrote, Flusher.batch]
  | openSegment opening created =>
      cases up
      refine queued.same rfl rfl rfl rfl ?_ (fun locked => by cases locked) rfl rfl
      simp [opening, Flusher.batch]
  | startWriter joining free =>
      cases up
      refine queued.same rfl rfl rfl rfl ?_ (fun locked => by cases locked) rfl rfl
      simp [joining, Flusher.batch]
  | flushed flushed =>
      obtain rfl := Option.some.inj (here.symm.trans up)
      refine ⟨queued.survived, queued.written, queued.framed, queued.numbered, queued.next,
        queued.flushed, queued.rotating, max_le queued.acknowledged ?_⟩
      have reported : s.survived + p.flushedSeq = s.written := queued.flushed
      show s.survived + _ ≤ s.written
      omega
  | released stopping =>
      obtain rfl := Option.some.inj (here.symm.trans up)
      exact queued
  | crash => cases up
  | _ =>
      cases up
      exact queued.same rfl rfl rfl rfl rfl queued.rotating rfl rfl

end

/-! ## What a crash cannot take away -/

/-- What is left of the segments when a crash takes all that is not synced. -/
def State.durable (s : State) : Std.ExtTreeMap Nat Bytes :=
  match s.process with
  | none => s.disk.segments
  | some p => s.disk.segments.modify p.segment (·.take p.synced)

/-- The record is decoded at its place from its segment, which may have been pruned. -/
def Retained (c : Codec) (s : State) (segments : Std.ExtTreeMap Nat Bytes) (i : Nat) : Prop :=
  ∃ (segment : Nat) (bytes : Bytes),
    (segments[segment]? = some bytes ∨ (segment, bytes) ∈ s.pruned) ∧ s.starts segment ≤ i ∧
      (readSegment c bytes).records[i - s.starts segment]? = s.history[i]?

/-- The number of the checkpoint that a writer has in hand, and the segments it is to remove. -/
def Writer.Below (top : Nat) : Writer → Prop
  | .writing number _ | .saved number => number ≤ top
  | .pruning newest segments => newest ≤ top ∧ ∀ segment ∈ segments, segment < newest
  | .pruningCheckpoints _ => True

def Flusher.Below (top : Nat) : Flusher → Prop
  | .joining number _ => number ≤ top
  | _ => True

/-- The segment in use: whole frames, all synced, as long as no write failed. -/
structure InUse (c : Codec) (s : State) (p : Process) (file : Bytes) : Prop where
  found : s.disk.segments[p.segment]? = some file
  synced : p.synced ≤ file.length
  whole : s.fault = none → (readSegment c file).tornTail = false
  reached : s.fault = none →
    s.starts p.segment + (readSegment c file).records.length = s.written
  safe : s.fault = none → p.synced = file.length

structure Sunk (c : Codec) (s : State) (p : Process) : Prop where
  here : ∃ file, InUse c s p file
  within : ∀ segment ∈ s.disk.segments, segment ≤ p.segment
  listed : p.segment < 10 ^ 6
  pruned : ∀ entry ∈ s.pruned, entry.1 ≤ p.segment
  writer : ∀ writer, p.writer = some writer → writer.Below p.segment
  flusher : p.flusher.Below p.segment
  fault : ∀ first, s.fault = some first → s.acknowledged ≤ first ∧ first ≤ s.written
  kept : ∀ i, s.survived ≤ i → i < s.fault.getD s.written → Retained c s s.durable i

structure Settled (c : Codec) (s : State) : Prop where
  listed : ∀ segment ∈ s.disk.segments, segment < 10 ^ 6
  acknowledged : s.acknowledged ≤ s.fault.getD s.written
  kept : ∀ i, s.survived ≤ i → i < s.fault.getD s.written → Retained c s s.disk.segments i

/-- Nothing is waited for from a batch on that a sink failed to write, and segment numbers have six
digits. -/
def Awaited (s : State) : Action → Prop
  | .waitFlushed seq => ∀ first, s.fault = some first → s.survived + seq ≤ first
  | .openSegment => ∀ p, s.process = some p → p.segment + 1 < 10 ^ 6
  | _ => True

instance (s : State) : (action : Action) → Decidable (Awaited s action)
  | .waitFlushed seq => decidable_of_iff (s.fault.all (s.survived + seq ≤ ·) = true) (by
      cases failed : s.fault <;> simp [Awaited, failed])
  | .openSegment => decidable_of_iff (s.process.all (·.segment + 1 < 10 ^ 6) = true) (by
      cases up : s.process <;> simp [Awaited, up])
  | .append _ | .takeBatch | .write _ | .checkSize | .startWriter | .saveCheckpoint
  | .renameCheckpoint | .prune | .stop | .crash _ _ | .recover => isTrue trivial

section
variable {c : Codec} {threshold : Nat} {s s' : State} {p p' : Process} {action : Action}
  {segments segments' : Std.ExtTreeMap Nat Bytes} {i : Nat}

theorem durable_up (up : s.process = some p) :
    s.durable = s.disk.segments.modify p.segment (·.take p.synced) := by
  rw [State.durable, up]

theorem Retained.mono (kept : Retained c s segments i) (inside : i < s.history.length)
    (history : s.history <+: s'.history)
    (grown : ∀ (k : Nat) (bytes : Bytes), segments[k]? = some bytes → s'.starts k = s.starts k ∧
      ((∃ more, segments'[k]? = some (bytes ++ more)) ∨ (k, bytes) ∈ s'.pruned))
    (pruned : ∀ entry ∈ s.pruned, s'.starts entry.1 = s.starts entry.1 ∧ entry ∈ s'.pruned) :
    Retained c s' segments' i := by
  obtain ⟨k, bytes, place, start, read⟩ := kept
  have same : s'.history[i]? = s.history[i]? := by
    obtain ⟨later, longer⟩ := history
    rw [← longer]
    exact List.getElem?_append_left inside
  rw [List.getElem?_eq_getElem inside] at read same
  rcases place with there | gone
  · obtain ⟨starts, ⟨more, there'⟩ | gone⟩ := grown k bytes there
    · refine ⟨k, bytes ++ more, .inl there', by rw [starts]; exact start, ?_⟩
      obtain ⟨later, longer⟩ : (readSegment c bytes).records <+:
          (readSegment c (bytes ++ more)).records := readSegment_mono
      rw [starts, same, ← longer,
        List.getElem?_append_left (List.getElem?_eq_some_iff.mp read).1]
      exact read
    · refine ⟨k, bytes, .inr gone, by rw [starts]; exact start, ?_⟩
      rw [starts, same]
      exact read
  · obtain ⟨starts, still⟩ := pruned _ gone
    refine ⟨k, bytes, .inr still, by rw [starts]; exact start, ?_⟩
    rw [starts, same]
    exact read

theorem limit_le (queued : Queued c s p) (sunk : Sunk c s p) :
    s.fault.getD s.written ≤ s.history.length := by
  refine Nat.le_trans ?_ queued.written
  cases failed : s.fault with
  | none => exact le_rfl
  | some first => exact (sunk.fault first failed).2

theorem Sunk.calm (queued : Queued c s p) (sunk : Sunk c s p) (up : s.process = some p)
    (up' : s'.process = some p') (segments : s'.disk.segments = s.disk.segments)
    (segment : p'.segment = p.segment) (synced : p'.synced = p.synced)
    (history : s.history <+: s'.history) (starts : s'.starts = s.starts)
    (pruned : s'.pruned = s.pruned) (survived : s'.survived = s.survived)
    (written : s'.written = s.written) (fault : s'.fault = s.fault)
    (acknowledged : ∀ first, s.fault = some first → s'.acknowledged ≤ first)
    (writer : ∀ writer, p'.writer = some writer → writer.Below p.segment)
    (flusher : p'.flusher.Below p.segment) : Sunk c s' p' := by
  have durable : s'.durable = s.durable := by
    rw [durable_up up, durable_up up', segments, segment, synced]
  obtain ⟨file, inUse⟩ := sunk.here
  constructor
  · refine ⟨file, ?_, ?_, ?_, ?_, ?_⟩
    · rw [segments, segment]
      exact inUse.found
    · rw [synced]
      exact inUse.synced
    · rw [fault]
      exact inUse.whole
    · rw [fault, starts, segment, written]
      exact inUse.reached
    · rw [fault, synced]
      exact inUse.safe
  · rw [segments, segment]
    exact sunk.within
  · rw [segment]
    exact sunk.listed
  · rw [pruned, segment]
    exact sunk.pruned
  · rw [segment]
    exact writer
  · rw [segment]
    exact flusher
  · rw [fault, written]
    exact fun first failed => ⟨acknowledged first failed, (sunk.fault first failed).2⟩
  · rw [survived, fault, written, durable]
    intro i low high
    refine (sunk.kept i low high).mono (Nat.lt_of_lt_of_le high (limit_le queued sunk)) history
      (fun k bytes there => ⟨by rw [starts], .inl ⟨[], by rw [there, List.append_nil]⟩⟩)
      fun entry member => ⟨by rw [starts], by rw [pruned]; exact member⟩

theorem Sunk.opened (queued : Queued c s p) (sunk : Sunk c s p) (up : s.process = some p)
    (opening : p.flusher = .opening) (room : p.segment + 1 < 10 ^ 6)
    {segments : Std.ExtTreeMap Nat Bytes}
    (created : segments = s.disk.segments.insertIfNew (p.segment + 1) [])
    (disk : s'.disk.segments = segments) (up' : s'.process = some p')
    (segment : p'.segment = p.segment + 1)
    (synced : p'.synced = (segments.getD (p.segment + 1) []).length)
    (flusher : p'.flusher.Below (p.segment + 1)) (writer : p'.writer = p.writer)
    (history : s'.history = s.history)
    (starts : s'.starts = Function.update s.starts (p.segment + 1) s.history.length)
    (pruned : s'.pruned = s.pruned) (survived : s'.survived = s.survived)
    (written : s'.written = s.written) (fault : s'.fault = s.fault)
    (acknowledged : s'.acknowledged = s.acknowledged) : Sunk c s' p' := by
  have fresh : p.segment + 1 ∉ s.disk.segments := fun there => by
    have := sunk.within _ there
    omega
  have lookup : ∀ k, segments[k]? =
      if k = p.segment + 1 then some [] else s.disk.segments[k]? := by
    intro k
    rw [created, Std.ExtTreeMap.getElem?_insertIfNew]
    by_cases same : k = p.segment + 1
    · subst same
      simp [fresh]
    · simp [same, Ne.symm same]
  have empty : segments.getD (p.segment + 1) [] = [] := by
    rw [Std.ExtTreeMap.getD_eq_getD_getElem?, lookup, if_pos rfl]
    rfl
  have all := queued.all_written opening
  have others : ∀ k, k ≤ p.segment → s'.starts k = s.starts k := by
    intro k le
    rw [starts, Function.update_of_ne (by omega)]
  constructor
  · refine ⟨[], ?_, ?_, fun _ => rfl, fun _ => ?_, fun _ => ?_⟩
    · rw [disk, segment, lookup, if_pos rfl]
    · rw [synced, empty]
    · rw [segment, starts, Function.update_self, written, all]
      rfl
    · rw [synced, empty]
  · intro k there
    rw [disk, created, Std.ExtTreeMap.mem_insertIfNew, Nat.compare_eq_eq] at there
    rw [segment]
    rcases there with rfl | before
    · exact le_rfl
    · exact Nat.le_succ_of_le (sunk.within k before)
  · rw [segment]
    exact room
  · rw [pruned, segment]
    exact fun entry member => Nat.le_succ_of_le (sunk.pruned entry member)
  · rw [segment, writer]
    intro current same
    have before := sunk.writer current same
    cases current with
    | writing number checkpoint => exact Nat.le_succ_of_le before
    | saved number => exact Nat.le_succ_of_le before
    | pruning newest rest => exact ⟨Nat.le_succ_of_le before.1, before.2⟩
    | pruningCheckpoints numbers => trivial
  · rw [segment]
    exact flusher
  · rw [fault, acknowledged, written]
    exact sunk.fault
  · rw [survived, fault, written]
    intro i low high
    refine (sunk.kept i low high).mono (Nat.lt_of_lt_of_le high (limit_le queued sunk))
      (history.symm ▸ List.prefix_rfl) (fun k bytes there => ?_) fun entry member =>
        ⟨others _ (sunk.pruned entry member), by rw [pruned]; exact member⟩
    rw [durable_up up] at there
    have le := sunk.within k (Std.ExtTreeMap.mem_modify.mp
      (Std.ExtTreeMap.mem_iff_isSome_getElem?.mpr (by rw [there]; rfl)))
    rw [getElem?_modify] at there
    refine ⟨others k le, .inl ?_⟩
    rw [durable_up up', disk, segment, getElem?_modify, if_neg (by omega), lookup,
      if_neg (by omega)]
    split at there
    · obtain ⟨file, found, rfl⟩ := Option.map_eq_some_iff.mp there
      exact ⟨file.drop p.synced, by rw [found, List.take_append_drop]⟩
    · exact ⟨[], by rw [there, List.append_nil]⟩

theorem Sunk.grown (queued : Queued c s p) (sunk : Sunk c s p) (up : s.process = some p)
    {file more : Bytes} (inUse : InUse c s p file) (up' : s'.process = some p')
    (disk : s'.disk.segments = s.disk.segments.modify p.segment (· ++ more))
    (segment : p'.segment = p.segment) (longer : p.synced ≤ p'.synced)
    (inside : p'.synced ≤ (file ++ more).length) (history : s'.history = s.history)
    (starts : s'.starts = s.starts) (pruned : s'.pruned = s.pruned)
    (survived : s'.survived = s.survived) (writer : p'.writer = p.writer)
    (flusher : p'.flusher.Below p.segment)
    (fault : ∀ first, s'.fault = some first → s'.acknowledged ≤ first ∧ first ≤ s'.written)
    (clean : s'.fault = none → (readSegment c (file ++ more)).tornTail = false ∧
      s.starts p.segment + (readSegment c (file ++ more)).records.length = s'.written ∧
      p'.synced = (file ++ more).length)
    (kept : ∀ i, s.survived ≤ i → i < s'.fault.getD s'.written →
      i < s.fault.getD s.written ∨
        s.starts p.segment ≤ i ∧ p'.synced = (file ++ more).length ∧
          (readSegment c (file ++ more)).records[i - s.starts p.segment]? = s.history[i]?) :
    Sunk c s' p' := by
  have found : s'.disk.segments[p'.segment]? = some (file ++ more) := by
    rw [disk, segment, getElem?_modify, if_pos rfl, inUse.found]
    rfl
  constructor
  · refine ⟨file ++ more, found, inside, fun ok => (clean ok).1, fun ok => ?_,
      fun ok => (clean ok).2.2⟩
    rw [segment, starts]
    exact (clean ok).2.1
  · rw [disk, segment]
    exact fun k there => sunk.within k (Std.ExtTreeMap.mem_modify.mp there)
  · rw [segment]
    exact sunk.listed
  · rw [pruned, segment]
    exact sunk.pruned
  · rw [segment, writer]
    exact sunk.writer
  · rw [segment]
    exact flusher
  · exact fault
  · rw [survived]
    intro i low high
    rcases kept i low high with before | ⟨start, whole, read⟩
    · refine (sunk.kept i low before).mono (Nat.lt_of_lt_of_le before (limit_le queued sunk))
        (history.symm ▸ List.prefix_rfl) (fun k bytes there => ⟨by rw [starts], .inl ?_⟩)
        fun entry member => ⟨by rw [starts], by rw [pruned]; exact member⟩
      rw [durable_up up, getElem?_modify] at there
      rw [durable_up up', disk, segment, getElem?_modify, getElem?_modify]
      by_cases same : p.segment = k
      · subst same
        rw [if_pos rfl, inUse.found] at there
        cases there
        rw [if_pos rfl, if_pos rfl, inUse.found]
        have first : file.take p.synced = ((file ++ more).take p'.synced).take p.synced := by
          rw [List.take_take, Nat.min_eq_left longer, List.take_append_of_le_length inUse.synced]
        refine ⟨((file ++ more).take p'.synced).drop p.synced, ?_⟩
        simp only [Option.map_some]
        rw [first, List.take_append_drop]
      · rw [if_neg same] at there ⊢
        rw [if_neg same]
        exact ⟨[], by rw [there, List.append_nil]⟩
    · refine ⟨p.segment, file ++ more, .inl ?_, by rw [starts]; exact start, ?_⟩
      · rw [durable_up up', segment, getElem?_modify, if_pos rfl, ← segment, found,
          Option.map_some, whole, List.take_length]
      · rw [starts, history]
        exact read

theorem Sunk.wrote (lossless : c.Lossless) (queued : Queued c s p) (sunk : Sunk c s p)
    (up : s.process = some p) {batch : List (Nat × Bytes)} {outcome : Outcome} {next : Flusher}
    (writing : p.flusher.batch = batch) (below : next.Below p.segment)
    (up' : (writeBatch s p batch outcome next).process = some p') :
    Sunk c (writeBatch s p batch outcome next) p' := by
  obtain ⟨file, inUse⟩ := sunk.here
  have size : s.disk.segments.getD p.segment [] = file := by
    rw [Std.ExtTreeMap.getD_eq_getD_getElem?, inUse.found]
    rfl
  have framed := queued.framed
  rw [writing] at framed
  have length := framed.length_eq
  rw [List.length_drop, List.length_append] at length
  have failing : ∀ more : Bytes, p.synced ≤ (file ++ more).length := by
    intro more
    rw [List.length_append]
    exact Nat.le_add_right_of_le inUse.synced
  have stopped : ∀ first, s.fault.or (some s.written) = some first →
      s.acknowledged ≤ first ∧ first ≤ s.written + batch.length := by
    intro first failed
    cases before : s.fault with
    | none =>
        rw [before] at failed
        cases failed
        exact ⟨queued.acknowledged, Nat.le_add_right _ _⟩
    | some earlier =>
        rw [before] at failed
        cases failed
        obtain ⟨low, high⟩ := sunk.fault first before
        exact ⟨low, Nat.le_add_right_of_le high⟩
  have still : (s.fault.or (some s.written)).getD (s.written + batch.length) =
      s.fault.getD s.written := by
    cases s.fault <;> rfl
  cases outcome with
  | done =>
      cases up'
      obtain ⟨decoded, whole⟩ := readSegment_joined lossless (List.forall₂_take_append _ _ _ framed)
      have together : ∀ ok : s.fault = none,
          (readSegment c (file ++ joined batch)).records =
              (readSegment c file).records ++ (s.history.drop s.written).take batch.length ∧
            (readSegment c (file ++ joined batch)).tornTail = false := by
        intro ok
        obtain ⟨records, torn⟩ := readSegment_append (joined batch) (inUse.whole ok)
        exact ⟨records.trans (congrArg _ decoded), torn.trans whole⟩
      have size' : (s.disk.segments.getD p.segment []).length + (joined batch).length =
          (file ++ joined batch).length := by
        rw [size, List.length_append]
      refine sunk.grown queued up inUse rfl rfl rfl ?_ size'.le rfl rfl rfl rfl rfl below ?_ ?_ ?_
      · exact Nat.le_trans (failing _) size'.ge
      · intro first failed
        obtain ⟨low, high⟩ := sunk.fault first failed
        exact ⟨low, Nat.le_add_right_of_le high⟩
      · intro ok
        obtain ⟨records, torn⟩ := together ok
        refine ⟨torn, ?_, size'⟩
        have reached := inUse.reached ok
        rw [records, List.length_append, List.length_take, List.length_drop]
        show _ = s.written + batch.length
        omega
      · intro i low high
        cases before : s.fault with
        | some first =>
            have high : i < s.fault.getD (s.written + batch.length) := high
            rw [before] at high
            exact .inl high
        | none =>
            have high : i < s.fault.getD (s.written + batch.length) := high
            rw [before, Option.getD_none] at high
            obtain early | late := Nat.lt_or_ge i s.written
            · exact .inl early
            · have reached := inUse.reached before
              refine .inr ⟨by omega, size', ?_⟩
              rw [(together before).1, List.getElem?_append_right (by omega), List.getElem?_take,
                if_pos (by omega), List.getElem?_drop]
              congr 1
              omega
  | short count =>
      cases up'
      refine sunk.grown queued up inUse rfl rfl rfl le_rfl (failing _) rfl rfl rfl rfl rfl below
        stopped (fun ok => ?_) fun i low high => .inl ?_
      · have : s.fault.or (some s.written) = none := ok
        cases before : s.fault <;> simp [before] at this
      · rw [← still]
        exact high
  | unsynced =>
      cases up'
      refine sunk.grown queued up inUse rfl rfl rfl le_rfl (failing _) rfl rfl rfl rfl rfl below
        stopped (fun ok => ?_) fun i low high => .inl ?_
      · have : s.fault.or (some s.written) = none := ok
        cases before : s.fault <;> simp [before] at this
      · rw [← still]
        exact high

theorem Sunk.removed (queued : Queued c s p) (sunk : Sunk c s p) (up : s.process = some p)
    {segment newest : Nat} {rest : List Nat}
    (pruning : p.writer = some (.pruning newest (segment :: rest)))
    (disk : s'.disk.segments = s.disk.segments.erase segment)
    (up' : s'.process = some { p with writer := some (.pruning newest rest) })
    (pruned : s'.pruned = s.pruned ++ [(segment, s.disk.segments.getD segment [])])
    (history : s'.history = s.history) (starts : s'.starts = s.starts)
    (survived : s'.survived = s.survived) (written : s'.written = s.written)
    (fault : s'.fault = s.fault) (acknowledged : s'.acknowledged = s.acknowledged) :
    Sunk c s' { p with writer := some (.pruning newest rest) } := by
  obtain ⟨low, above⟩ := sunk.writer _ pruning
  have other : segment < p.segment := Nat.lt_of_lt_of_le (above segment List.mem_cons_self) low
  obtain ⟨file, inUse⟩ := sunk.here
  constructor
  · refine ⟨file, ?_, inUse.synced, ?_, ?_, ?_⟩
    · rw [disk, getElem?_erase, if_neg other.ne]
      exact inUse.found
    · rw [fault]
      exact inUse.whole
    · rw [fault, starts, written]
      exact inUse.reached
    · rw [fault]
      exact inUse.safe
  · rw [disk]
    exact fun k there => sunk.within k (Std.ExtTreeMap.mem_of_mem_erase there)
  · exact sunk.listed
  · rw [pruned]
    intro entry member
    rcases List.mem_append.mp member with before | new
    · exact sunk.pruned entry before
    · rw [List.mem_singleton.mp new]
      exact other.le
  · rintro writer ⟨⟩
    exact ⟨low, fun k member => above k (List.mem_cons_of_mem _ member)⟩
  · exact sunk.flusher
  · rw [fault, acknowledged, written]
    exact sunk.fault
  · rw [survived, fault, written]
    intro i lo hi
    refine (sunk.kept i lo hi).mono (Nat.lt_of_lt_of_le hi (limit_le queued sunk))
      (history.symm ▸ List.prefix_rfl) (fun k bytes there => ⟨by rw [starts], ?_⟩)
      fun entry member => ⟨by rw [starts], by rw [pruned]; exact List.mem_append_left _ member⟩
    rw [durable_up up] at there
    rw [durable_up up', disk]
    dsimp only
    rw [getElem?_modify] at there ⊢
    rw [getElem?_erase]
    by_cases gone : segment = k
    · subst gone
      rw [if_neg other.ne'] at there
      refine .inr ?_
      rw [pruned, Std.ExtTreeMap.getD_eq_getD_getElem?, there]
      exact List.mem_append_right _ (List.mem_singleton_self _)
    · rw [if_neg gone]
      exact .inl ⟨[], by rw [List.append_nil]; exact there⟩

theorem Sunk.turn (lossless : c.Lossless) (queued : Queued c s p) (sunk : Sunk c s p)
    (up : s.process = some p) (turn : Turn c threshold s p action s') (awaited : Awaited s action)
    (up' : s'.process = some p') : Sunk c s' p' := by
  have acknowledged := fun first failed => (sunk.fault first failed).1
  cases turn with
  | append unlocked logged serialized =>
      cases up'
      exact sunk.calm queued up rfl rfl rfl rfl (List.prefix_append _ _) rfl rfl rfl rfl rfl
        acknowledged sunk.writer sunk.flusher
  | takeBatch waiting =>
      cases up'
      exact sunk.calm queued up rfl rfl rfl rfl List.prefix_rfl rfl rfl rfl rfl rfl
        acknowledged sunk.writer trivial
  | write turn =>
      obtain ⟨writing, rfl⟩ | ⟨writing, rfl⟩ := turn
      all_goals exact sunk.wrote lossless queued up (by rw [writing]; rfl) trivial up'
  | rest wrote =>
      cases up'
      exact sunk.calm queued up rfl rfl rfl rfl List.prefix_rfl rfl rfl rfl rfl rfl
        acknowledged sunk.writer trivial
  | drain wrote long turn =>
      cases up'
      refine sunk.calm queued up rfl rfl rfl rfl List.prefix_rfl rfl rfl rfl rfl rfl
        acknowledged sunk.writer ?_
      obtain ⟨-, rfl⟩ | rfl := turn <;> trivial
  | openSegment opening created =>
      cases up'
      exact sunk.opened queued up opening (awaited p up) created rfl rfl rfl rfl le_rfl rfl rfl rfl
        rfl rfl rfl rfl rfl
  | startWriter joining free =>
      cases up'
      refine sunk.calm queued up rfl rfl rfl rfl List.prefix_rfl rfl rfl rfl rfl rfl
        acknowledged ?_ trivial
      rintro writer ⟨⟩
      have below := sunk.flusher
      rw [joining] at below
      exact below
  | giveUp writing =>
      cases up'
      exact sunk.calm queued up rfl rfl rfl rfl List.prefix_rfl rfl rfl rfl rfl rfl
        acknowledged (fun _ none => by cases none) sunk.flusher
  | saveCheckpoint writing serialized =>
      cases up'
      refine sunk.calm queued up rfl rfl rfl rfl List.prefix_rfl rfl rfl rfl rfl rfl
        acknowledged ?_ sunk.flusher
      rintro writer ⟨⟩
      have below := sunk.writer _ writing
      exact below
  | renameCheckpoint saved =>
      cases up'
      refine sunk.calm queued up rfl rfl rfl rfl List.prefix_rfl rfl rfl rfl rfl rfl
        acknowledged ?_ sunk.flusher
      rintro writer ⟨⟩
      exact ⟨sunk.writer _ saved, fun k member => by simpa using (List.mem_filter.mp member).2⟩
  | pruneSegment pruning =>
      cases up'
      exact sunk.removed queued up pruning rfl rfl rfl rfl rfl rfl rfl rfl rfl
  | listCheckpoints pruning =>
      cases up'
      refine sunk.calm queued up rfl rfl rfl rfl List.prefix_rfl rfl rfl rfl rfl rfl
        acknowledged ?_ sunk.flusher
      rintro writer ⟨⟩
      trivial
  | pruneCheckpoint pruning =>
      cases up'
      refine sunk.calm queued up rfl rfl rfl rfl List.prefix_rfl rfl rfl rfl rfl rfl
        acknowledged ?_ sunk.flusher
      rintro writer ⟨⟩
      trivial
  | endWriter pruning =>
      cases up'
      exact sunk.calm queued up rfl rfl rfl rfl List.prefix_rfl rfl rfl rfl rfl rfl
        acknowledged (fun _ none => by cases none) sunk.flusher
  | released stopping =>
      obtain rfl := Option.some.inj (up.symm.trans up')
      exact sunk
  | flushed flushed =>
      obtain rfl := Option.some.inj (up.symm.trans up')
      exact sunk.calm queued up up rfl rfl rfl List.prefix_rfl rfl rfl rfl rfl rfl
        (fun first failed => max_le (acknowledged first failed) (awaited first failed))
        sunk.writer sunk.flusher
  | stop =>
      cases up'
      exact sunk.calm queued up rfl rfl rfl rfl List.prefix_rfl rfl rfl rfl rfl rfl
        acknowledged sunk.writer sunk.flusher
  | crash => cases up'

theorem Sunk.settled (queued : Queued c s p) (sunk : Sunk c s p) (up : s.process = some p)
    (turn : Turn c threshold s p action s') (down : s'.process = none) : Settled c s' := by
  cases turn with
  | @crash kept keptTemporary =>
      constructor
      · exact fun k there => Nat.lt_of_le_of_lt
          (sunk.within k (Std.ExtTreeMap.mem_modify.mp there)) sunk.listed
      · show s.acknowledged ≤ s.fault.getD s.written
        cases failed : s.fault with
        | none => exact queued.acknowledged
        | some first => exact (sunk.fault first failed).1
      · intro i low high
        have sent : i < s.fault.getD s.written := high
        have inside := Nat.lt_of_lt_of_le sent (limit_le queued sunk)
        refine (sunk.kept i low high).mono inside List.prefix_rfl (fun k bytes there => ⟨rfl, .inl ?_⟩)
          fun entry member => ⟨rfl, member⟩
        rw [durable_up up, getElem?_modify] at there
        show ∃ more, (s.disk.segments.modify p.segment _)[k]? = _
        rw [getElem?_modify]
        split at there
        case isTrue same =>
          subst same
          obtain ⟨file, found, rfl⟩ := Option.map_eq_some_iff.mp there
          obtain ⟨file', inUse⟩ := sunk.here
          obtain rfl := Option.some.inj (found.symm.trans inUse.found)
          rw [if_pos rfl, found]
          have first : file.take p.synced =
              ((file ++ joined p.flusher.batch).take (max p.synced kept)).take p.synced := by
            rw [List.take_take, Nat.min_eq_left (le_max_left _ _),
              List.take_append_of_le_length inUse.synced]
          refine ⟨((file ++ joined p.flusher.batch).take (max p.synced kept)).drop p.synced, ?_⟩
          rw [first, List.take_append_drop]
          rfl
        case isFalse other =>
          rw [if_neg other]
          exact ⟨[], by rw [there, List.append_nil]⟩
  | released stopping => rw [up] at down; cases down
  | flushed flushed => rw [up] at down; cases down
  | @write outcome batch next turn => cases outcome <;> cases down
  | _ => cases down

theorem Sunk.restarted (settled : Settled c s) :
    ∃ p, (restart c s).process = some p ∧ Sunk c (restart c s) p := by
  obtain ⟨whole, short, -⟩ := opened_whole (c := c) settled.listed rfl
  refine ⟨_, rfl, ?_⟩
  constructor
  · refine ⟨_, getElem?_insertIfNew_self _ _, le_rfl, fun _ => whole, fun _ => ?_, fun _ => rfl⟩
    show Function.update s.starts _ _ _ + _ = _
    rw [Function.update_self]
    refine Nat.sub_add_cancel (Nat.le_trans short ?_)
    rw [List.length_append]
    exact Nat.le_add_left _ _
  · intro k there
    rcases Std.ExtTreeMap.mem_insertIfNew.mp there with same | member
    · exact (Nat.compare_eq_eq.mp same).ge
    · have before : k ∈ s.disk.segments := by
        rw [Std.ExtTreeMap.mem_iff_isSome_getElem?, getElem?_recover] at member
        rw [Std.ExtTreeMap.mem_iff_isSome_getElem?]
        split at member
        · rwa [Option.isSome_map] at member
        · exact member
      exact le_active (mem_listSegments.mpr ⟨before, settled.listed k before⟩)
  · exact active_lt
  · exact fun entry none => by cases none
  · exact fun writer none => by cases none
  · trivial
  · exact fun first none => by cases none
  · intro i low high
    exact absurd (Nat.lt_of_le_of_lt low high) (Nat.lt_irrefl _)

structure Logged (c : Codec) (s : State) : Prop where
  up : ∀ p, s.process = some p → Queued c s p ∧ Sunk c s p
  down : s.process = none → Settled c s

theorem Logged.next (lossless : c.Lossless) (logged : Logged c s) (awaited : Awaited s action)
    (taken : step c threshold s action = some s') : Logged c s' := by
  cases here : s.process with
  | none =>
      rw [step_down here taken]
      obtain ⟨p, up, queued⟩ := Queued.restarted (c := c) (s := s)
      obtain ⟨p', up', sunk⟩ := Sunk.restarted (logged.down here)
      obtain rfl := Option.some.inj (up.symm.trans up')
      refine ⟨fun p' up' => ?_, fun down => ?_⟩
      · obtain rfl := Option.some.inj (up.symm.trans up')
        exact ⟨queued, sunk⟩
      · rw [up] at down
        cases down
  | some p =>
      obtain ⟨queued, sunk⟩ := logged.up p here
      have turn := step_turn here taken
      exact ⟨fun p' up' => ⟨queued.turn here turn up', sunk.turn lossless queued here turn awaited up'⟩,
        fun down => sunk.settled queued here turn down⟩

theorem logged_initial (initial : Initial s) : Logged c s := by
  subst initial
  refine ⟨fun p up => (by cases up), fun _ => ⟨fun k there => ?_, le_rfl, fun i low high => ?_⟩⟩
  · exact absurd there Std.ExtTreeMap.not_mem_empty
  · exact absurd high (Nat.not_lt_zero i)

end

/-- After a crash every record that was waited for is at its place in its segment. -/
theorem retained_of_awaited {c : Codec} {threshold : Nat} {s : State} (lossless : c.Lossless)
    (reachable : Reachable (step c threshold) Initial Awaited s) (down : s.process = none) {i : Nat}
    (here : s.survived ≤ i) (waited : i < s.acknowledged) :
    Retained c s s.disk.segments i := by
  have logged : Logged c s := reachable.invariant (fun _ => logged_initial)
    fun _ _ _ logged awaited taken => logged.next lossless awaited taken
  have settled := logged.down down
  exact settled.kept i here (Nat.lt_of_lt_of_le waited settled.acknowledged)

/-- The second batch stops after three bytes, and nobody waits for it. -/
def stoppedLate : List Action :=
  [.recover, .append (.create ['/', 'a']), .takeBatch, .write .done, .waitFlushed 1, .checkSize,
    .append (.create ['/', 'a']), .takeBatch, .write (.short 3), .crash 0 0]

/-- The only batch is not written at all, and its record is waited for. -/
def stoppedEarly : List Action :=
  [.recover, .append (.create ['/', 'a']), .takeBatch, .write (.short 0), .waitFlushed 1, .crash 0 0]

theorem retained_stoppedLate : ∃ s, run (step sample 100) {} stoppedLate = some s ∧
    s.survived = 0 ∧ s.acknowledged = 1 ∧ Retained sample s s.disk.segments 0 := by
  obtain ⟨s, ran⟩ := Option.isSome_iff_exists.mp
    (by decide +kernel : (run (step sample 100) {} stoppedLate).isSome = true)
  have last : (run (step sample 100) {} stoppedLate).map
      (fun s => (s.process.isNone, s.survived, s.acknowledged)) = some (true, 0, 1) := by
    decide +kernel
  simp only [ran, Option.map_some, Option.some.injEq, Prod.mk.injEq] at last
  obtain ⟨down, survived, acknowledged⟩ := last
  exact ⟨s, ran, survived, acknowledged, retained_of_awaited sample_lossless
    (reachable_run rfl (by decide +kernel) ran) (Option.isNone_iff_eq_none.mp down)
    (by rw [survived]) (by rw [acknowledged]; exact Nat.one_pos)⟩

/-- The sink fails, `WriteBatch` reports the record as flushed, and after a crash it is gone. -/
theorem retained_fails : ¬ ∀ (c : Codec) (threshold : Nat) (s : State), c.Lossless →
    Reachable (step c threshold) Initial (fun _ _ => True) s → s.process = none →
    ∀ i, s.survived ≤ i → i < s.acknowledged → Retained c s s.disk.segments i := by
  intro always
  obtain ⟨s, ran⟩ := Option.isSome_iff_exists.mp
    (by decide +kernel : (run (step sample 100) {} stoppedEarly).isSome = true)
  have last : (run (step sample 100) {} stoppedEarly).map
      (fun s => (s.process.isNone, s.survived, s.acknowledged)) = some (true, 0, 1) := by
    decide +kernel
  have files : (run (step sample 100) {} stoppedEarly).map
      (fun s => (s.disk.segments.toList, s.pruned, s.history)) =
        some ([(1, [])], [], [.create ['/', 'a']]) := by
    decide +kernel
  simp only [ran, Option.map_some, Option.some.injEq, Prod.mk.injEq] at last files
  obtain ⟨down, survived, acknowledged⟩ := last
  obtain ⟨segments, pruned, history⟩ := files
  obtain ⟨k, bytes, place, start, read⟩ := always sample 100 s sample_lossless
    (reachable_run_true rfl ran) (Option.isNone_iff_eq_none.mp down) 0
    (by rw [survived]) (by rw [acknowledged]; exact Nat.one_pos)
  rw [pruned, ← Std.ExtTreeMap.mem_toList_iff_getElem?_eq_some, segments] at place
  obtain ⟨-, rfl⟩ : k = 1 ∧ bytes = [] := by simpa using place
  rw [history] at read
  cases read

end Gfs.Master.OpLog
