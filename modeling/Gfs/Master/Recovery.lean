import Gfs.Master.Segments

/-!
# Recovery

As long as writes succeed, the files hold the history up to what was written, at every moment of the
flusher and of the checkpoint writer (`Exact`). A crash adds the whole frames of the batch that was
on its way, so what was waited for is rebuilt (`recover_exact`).
-/

namespace Gfs.Master.OpLog
open Framing Lib.Maps Lib.Transition MasterState

section
variable {c : Codec} {threshold : Nat} {s s' : State} {p p' : Process} {action : Action}
  {active n : Nat}

/-! ## While the process runs -/

def Flusher.Exact (history : List LogRecord) (starts : Nat → Nat) (active n : Nat) : Flusher → Prop
  | .joining number checkpoint => Image history starts active n number checkpoint
  | _ => True

def Writer.Exact (c : Codec) (disk : Disk) (history : List LogRecord) (starts : Nat → Nat)
    (active n : Nat) : Writer → Prop
  | .writing number checkpoint => Image history starts active n number checkpoint
  | .saved number => ∃ (bytes : Bytes) (checkpoint : Checkpoint),
      disk.temporaries[number]? = some bytes ∧ readCheckpoint c bytes = some checkpoint ∧
        Image history starts active n number checkpoint
  | .pruning newest segments => newest ∈ disk.checkpoints ∧ ∀ segment ∈ segments, segment < newest
  | .pruningCheckpoints numbers => ∀ number ∈ numbers, ∃ newest ∈ disk.checkpoints,
      newest ∉ numbers ∧ number < newest

structure Exact (c : Codec) (s : State) (p : Process) : Prop where
  stored : Stored c s.disk s.history s.starts p.segment s.written
  plain : p.live.Plain
  alike : p.live.Alike (({} : MasterState).replay s.history)
  logs : Logs s.history
  flusher : p.flusher.Exact s.history s.starts p.segment s.written
  writer : ∀ writer, p.writer = some writer →
    writer.Exact c s.disk s.history s.starts p.segment s.written

/-- Writes succeed, and segment numbers have six digits. -/
def Clean (s : State) : Action → Prop
  | .write outcome => outcome = .done
  | .openSegment => ∀ p, s.process = some p → p.segment + 1 < 10 ^ 6
  | _ => True

instance (s : State) : (action : Action) → Decidable (Clean s action)
  | .write outcome => inferInstanceAs (Decidable (outcome = .done))
  | .openSegment => decidable_of_iff (s.process.all (·.segment + 1 < 10 ^ 6) = true) (by
      cases up : s.process <;> simp [Clean, up])
  | .append _ | .takeBatch | .checkSize | .startWriter | .saveCheckpoint | .renameCheckpoint
  | .prune | .waitFlushed _ | .stop | .crash _ _ | .recover => isTrue trivial

theorem Flusher.Exact.longer {flusher : Flusher} {history history' : List LogRecord}
    {starts : Nat → Nat} {n' : Nat} (exact : flusher.Exact history starts active n)
    (start : history <+: history') (inside : n ≤ history.length) (more : n ≤ n') :
    flusher.Exact history' starts active n' := by
  cases flusher with
  | joining number checkpoint => exact Image.longer exact start inside more
  | _ => trivial

theorem Writer.Exact.longer {writer : Writer} {disk disk' : Disk} {history history' : List LogRecord}
    {starts : Nat → Nat} {n' : Nat} (exact : writer.Exact c disk history starts active n)
    (start : history <+: history') (inside : n ≤ history.length) (more : n ≤ n')
    (checkpoints : disk'.checkpoints = disk.checkpoints)
    (temporaries : disk'.temporaries = disk.temporaries) :
    writer.Exact c disk' history' starts active n' := by
  cases writer with
  | writing number checkpoint => exact Image.longer exact start inside more
  | saved number =>
      obtain ⟨bytes, checkpoint, found, read, image⟩ := exact
      exact ⟨bytes, checkpoint, temporaries ▸ found, read, image.longer start inside more⟩
  | pruning newest segments => exact ⟨checkpoints ▸ exact.1, exact.2⟩
  | pruningCheckpoints numbers =>
      unfold Writer.Exact
      rw [checkpoints]
      exact exact

theorem Writer.Exact.opened {writer : Writer} {disk disk' : Disk} {history : List LogRecord}
    {starts : Nat → Nat} {start : Nat} (exact : writer.Exact c disk history starts active n)
    (checkpoints : disk'.checkpoints = disk.checkpoints)
    (temporaries : disk'.temporaries = disk.temporaries) :
    writer.Exact c disk' history (Function.update starts (active + 1) start) (active + 1) n := by
  cases writer with
  | writing number checkpoint => exact Image.opened exact
  | saved number =>
      obtain ⟨bytes, checkpoint, found, read, image⟩ := exact
      exact ⟨bytes, checkpoint, temporaries ▸ found, read, image.opened⟩
  | pruning newest segments => exact ⟨checkpoints ▸ exact.1, exact.2⟩
  | pruningCheckpoints numbers =>
      unfold Writer.Exact
      rw [checkpoints]
      exact exact

theorem Exact.calm (exact : Exact c s p) (disk : s'.disk = s.disk) (history : s'.history = s.history)
    (starts : s'.starts = s.starts) (written : s'.written = s.written)
    (segment : p'.segment = p.segment) (live : p'.live = p.live)
    (flusher : p'.flusher.Exact s.history s.starts p.segment s.written)
    (writer : ∀ writer, p'.writer = some writer →
      writer.Exact c s.disk s.history s.starts p.segment s.written) : Exact c s' p' := by
  constructor
  · rw [disk, history, starts, segment, written]
    exact exact.stored
  · rw [live]
    exact exact.plain
  · rw [live, history]
    exact exact.alike
  · rw [history]
    exact exact.logs
  · rw [history, starts, segment, written]
    exact flusher
  · rw [disk, history, starts, segment, written]
    exact writer

theorem Exact.filed (exact : Exact c s p) (history : s'.history = s.history)
    (starts : s'.starts = s.starts) (written : s'.written = s.written)
    (segment : p'.segment = p.segment) (live : p'.live = p.live) (flusher : p'.flusher = p.flusher)
    (stored : Stored c s'.disk s.history s.starts p.segment s.written)
    (writer : ∀ writer, p'.writer = some writer →
      writer.Exact c s'.disk s.history s.starts p.segment s.written) : Exact c s' p' := by
  constructor
  · rw [history, starts, segment, written]
    exact stored
  · rw [live]
    exact exact.plain
  · rw [live, history]
    exact exact.alike
  · rw [history]
    exact exact.logs
  · rw [flusher, history, starts, segment, written]
    exact exact.flusher
  · rw [history, starts, segment, written]
    exact writer

theorem Exact.appended (exact : Exact c s p) {record : LogRecord} {payload : Bytes}
    (loggable : loggable p.live record = true) : Exact c
      { s with
        history := s.history ++ [record]
        process := some { p with
          live := p.live.apply record
          pending := p.pending ++ [(p.nextSeq, encodeRecord c.crc payload)]
          nextSeq := p.nextSeq + 1 } }
      { p with
        live := p.live.apply record
        pending := p.pending ++ [(p.nextSeq, encodeRecord c.crc payload)]
        nextSeq := p.nextSeq + 1 } := by
  have longer : s.history <+: s.history ++ [record] := List.prefix_append _ _
  have inside := exact.stored.inside
  refine ⟨exact.stored.longer longer, exact.plain.apply record, ?_, ?_,
    exact.flusher.longer longer inside le_rfl,
    fun writer is => (exact.writer writer is).longer longer inside le_rfl rfl rfl⟩
  · show (p.live.apply record).Alike (({} : MasterState).replay (s.history ++ [record]))
    rw [replay_concat]
    exact exact.alike.apply record
  · apply exact.logs.append
    rw [← exact.alike.loggable]
    exact loggable

theorem records_grown (lossless : c.Lossless) (queued : Queued c s p) (sunk : Sunk c s p)
    (clean : s.fault = none) {batch : List (Nat × Bytes)} (writing : p.flusher.batch = batch)
    {disk' : Disk} {k : Nat}
    (segments : disk'.segments = s.disk.segments.modify p.segment
      (fun bytes => bytes ++ (joined batch).take k)) :
    ∃ more, more <+: (s.history.drop s.written).take batch.length ∧
      (∀ k, k ∈ disk'.segments ↔ k ∈ s.disk.segments) ∧
      (∀ k, k ≠ p.segment → disk'.records c k = s.disk.records c k) ∧
      disk'.records c p.segment = s.disk.records c p.segment ++ more ∧
      ((joined batch).length ≤ k → more = (s.history.drop s.written).take batch.length) := by
  obtain ⟨file, inUse⟩ := sunk.here
  have framed := queued.framed
  rw [writing] at framed
  have written := List.forall₂_take_append _ _ _ framed
  refine ⟨(readSegment c ((joined batch).take k)).records, readSegment_cut lossless written k,
    fun k => by rw [segments, Std.ExtTreeMap.mem_modify], fun k other => ?_, ?_, fun whole => ?_⟩
  · rw [Disk.records, Disk.records, segments, Std.ExtTreeMap.getD_eq_getD_getElem?,
      getElem?_modify, if_neg other.symm, Std.ExtTreeMap.getD_eq_getD_getElem?]
  · rw [Disk.records, Disk.records, segments, Std.ExtTreeMap.getD_eq_getD_getElem?,
      getElem?_modify, if_pos rfl, Std.ExtTreeMap.getD_eq_getD_getElem?, inUse.found]
    exact (readSegment_append _ (inUse.whole clean)).1
  · rw [List.take_of_length_le whole]
    exact (readSegment_joined lossless written).1

theorem Exact.wrote (lossless : c.Lossless) (queued : Queued c s p) (sunk : Sunk c s p)
    (clean : s.fault = none) (exact : Exact c s p) {batch : List (Nat × Bytes)} {next : Flusher}
    (writing : p.flusher.batch = batch)
    (quiet : ∀ n, next.Exact s.history s.starts p.segment n)
    (up' : (writeBatch s p batch .done next).process = some p') :
    Exact c (writeBatch s p batch .done next) p' := by
  cases up'
  have length := queued.framed.length_eq
  rw [List.length_drop, List.length_append, writing] at length
  have appended : (writeBatch s p batch .done next).disk.segments = s.disk.segments.modify p.segment
      (fun bytes => bytes ++ (joined batch).take (joined batch).length) := by
    rw [List.take_length]
    rfl
  obtain ⟨more, -, segments, same, grown, all⟩ := records_grown lossless queued sunk clean writing appended
  obtain rfl := all le_rfl
  have count : ((s.history.drop s.written).take batch.length).length = batch.length := by
    rw [List.length_take, List.length_drop]
    omega
  have stored := exact.stored.grown segments rfl same grown (List.take_prefix _ _)
  rw [count] at stored
  have longer : s.written ≤ s.written + batch.length := Nat.le_add_right _ _
  exact ⟨stored, exact.plain, exact.alike, exact.logs, quiet _, fun writer is =>
    (exact.writer writer is).longer List.prefix_rfl exact.stored.inside longer rfl rfl⟩

theorem Exact.opened (queued : Queued c s p) (exact : Exact c s p)
    (opening : p.flusher = .opening) (room : p.segment + 1 < 10 ^ 6)
    {segments : Std.ExtTreeMap Nat Bytes}
    (created : segments = s.disk.segments.insertIfNew (p.segment + 1) [])
    (disk : s'.disk = { s.disk with segments }) (history : s'.history = s.history)
    (starts : s'.starts = Function.update s.starts (p.segment + 1) s.history.length)
    (written : s'.written = s.written) (segment : p'.segment = p.segment + 1)
    (live : p'.live = p.live) (flusher : p'.flusher = .joining (p.segment + 1) p.live.toCheckpoint)
    (writer : p'.writer = p.writer) : Exact c s' p' := by
  have all : s.written = s.history.length := queued.all_written opening
  rw [← all] at starts
  constructor
  · rw [disk, history, starts, written, segment]
    exact exact.stored.opened room created rfl
  · rw [live]
    exact exact.plain
  · rw [live, history]
    exact exact.alike
  · rw [history]
    exact exact.logs
  · rw [flusher, history, starts, written, segment]
    refine ⟨Nat.lt_add_of_pos_left exact.stored.positive, le_rfl, ?_, p.live, exact.plain, ?_, rfl⟩
    · rw [Function.update_self]
    · rw [Function.update_self, all, List.take_length]
      exact exact.alike
  · rw [disk, history, starts, written, segment, writer]
    exact fun current is => (exact.writer current is).opened rfl rfl

theorem readCheckpoint_encodeRecord (lossless : c.Lossless) {checkpoint : Checkpoint} {payload : Bytes}
    (serialized : c.checkpoint checkpoint = some payload) :
    readCheckpoint c (encodeRecord c.crc payload) = some checkpoint := by
  obtain ⟨small, parsed⟩ := lossless.checkpoint checkpoint payload serialized
  have short : ∀ other ∈ [payload], other.length < 2 ^ 32 := by simpa using small
  obtain ⟨payloads, whole⟩ := decodeRecords_frames c.crc short
  have one : frames c.crc [payload] = encodeRecord c.crc payload := by
    rw [frames_cons]
    exact List.append_nil _
  rw [one] at payloads whole
  unfold readCheckpoint
  dsimp only
  rw [whole, payloads]
  exact parsed

theorem newest_two {numbers : List Nat} {number : Nat} (sorted : numbers.Pairwise (· < ·))
    (member : number ∈ numbers.take (numbers.length - 2)) :
    ∃ a ∈ numbers, ∃ b ∈ numbers, a < b ∧ number < a ∧
      a ∉ numbers.take (numbers.length - 2) ∧ b ∉ numbers.take (numbers.length - 2) := by
  have count := List.length_pos_of_mem member
  rw [List.length_take] at count
  have two : (numbers.drop (numbers.length - 2)).length = 2 := by
    rw [List.length_drop]
    omega
  rw [← List.take_append_drop (numbers.length - 2) numbers] at sorted
  obtain ⟨-, ordered, apart⟩ := List.pairwise_append.mp sorted
  obtain ⟨a, b, left⟩ := List.length_eq_two.mp two
  rw [left] at ordered apart
  have inside : ∀ other ∈ [a, b], other ∈ numbers := by
    rw [← left]
    exact fun other => List.mem_of_mem_drop
  have later : ∀ other ∈ [a, b], other ∉ numbers.take (numbers.length - 2) := fun other last early =>
    Nat.lt_irrefl other (apart other early other last)
  exact ⟨a, inside a (by simp), b, inside b (by simp), by simpa using ordered,
    apart number member a (by simp), later a (by simp), later b (by simp)⟩

theorem Exact.turn (lossless : c.Lossless) (queued : Queued c s p) (sunk : Sunk c s p)
    (noFault : s.fault = none) (exact : Exact c s p) (up : s.process = some p)
    (turn : Turn c threshold s p action s') (clean : Clean s action)
    (up' : s'.process = some p') : Exact c s' p' := by
  cases turn with
  | append unlocked logged serialized =>
      cases up'
      exact exact.appended logged
  | takeBatch waiting =>
      cases up'
      exact exact.calm rfl rfl rfl rfl rfl rfl trivial exact.writer
  | write turn =>
      obtain rfl : _ = Outcome.done := clean
      obtain ⟨writing, rfl⟩ | ⟨writing, rfl⟩ := turn
      · exact exact.wrote lossless queued sunk noFault (congrArg Flusher.batch writing)
          (fun _ => trivial) up'
      · exact exact.wrote lossless queued sunk noFault (congrArg Flusher.batch writing)
          (fun _ => trivial) up'
  | rest wrote =>
      cases up'
      exact exact.calm rfl rfl rfl rfl rfl rfl trivial exact.writer
  | drain wrote long turn =>
      cases up'
      refine exact.calm rfl rfl rfl rfl rfl rfl ?_ exact.writer
      obtain ⟨-, rfl⟩ | rfl := turn <;> trivial
  | openSegment opening created =>
      cases up'
      exact exact.opened queued opening (clean p up) created rfl rfl rfl rfl rfl rfl rfl rfl
  | startWriter joining free =>
      cases up'
      refine exact.calm rfl rfl rfl rfl rfl rfl trivial ?_
      rintro writer ⟨⟩
      have image := exact.flusher
      rw [joining] at image
      exact image
  | giveUp writing =>
      cases up'
      exact exact.calm rfl rfl rfl rfl rfl rfl exact.flusher fun _ none => by cases none
  | saveCheckpoint writing serialized =>
      cases up'
      refine exact.filed rfl rfl rfl rfl rfl rfl (exact.stored.same rfl rfl) ?_
      rintro writer ⟨⟩
      refine ⟨_, _, ?_, readCheckpoint_encodeRecord lossless serialized, exact.writer _ writing⟩
      exact Std.ExtTreeMap.getElem?_insert_self
  | @renameCheckpoint number saved =>
      cases up'
      obtain ⟨bytes, checkpoint, found, read, image⟩ := exact.writer _ saved
      have same : s.disk.temporaries.getD number [] = bytes := by
        rw [Std.ExtTreeMap.getD_eq_getD_getElem?, found]
        rfl
      refine exact.filed rfl rfl rfl rfl rfl rfl (exact.stored.sealed read image rfl ?_) ?_
      · rw [same]
      · rintro writer ⟨⟩
        refine ⟨Std.ExtTreeMap.mem_insert_self, fun segment member => ?_⟩
        simpa using (List.mem_filter.mp member).2
  | pruneSegment pruning =>
      cases up'
      obtain ⟨there, before⟩ := exact.writer _ pruning
      refine exact.filed rfl rfl rfl rfl rfl rfl
        (exact.stored.removed there (before _ List.mem_cons_self) rfl rfl) ?_
      rintro writer ⟨⟩
      exact ⟨there, fun segment member => before segment (List.mem_cons_of_mem _ member)⟩
  | listCheckpoints pruning =>
      cases up'
      refine exact.calm rfl rfl rfl rfl rfl rfl exact.flusher ?_
      rintro writer ⟨⟩ number member
      obtain ⟨newest, listed, -, -, -, before, absent, -⟩ :=
        newest_two (sorted_listCheckpoints _) member
      exact ⟨newest, (mem_listCheckpoints.mp listed).1, absent, before⟩
  | @pruneCheckpoint number rest pruning =>
      cases up'
      have newer := exact.writer _ pruning
      obtain ⟨newest, there, absent, before⟩ := newer number List.mem_cons_self
      refine exact.filed rfl rfl rfl rfl rfl rfl (exact.stored.dropped there before rfl rfl) ?_
      rintro writer ⟨⟩ other member
      obtain ⟨newest', there', absent', before'⟩ := newer other (List.mem_cons_of_mem _ member)
      refine ⟨newest', Std.ExtTreeMap.mem_erase.mpr ⟨fun same => absent' ?_, there'⟩,
        fun later => absent' (List.mem_cons_of_mem _ later), before'⟩
      rw [← Nat.compare_eq_eq.mp same]
      exact List.mem_cons_self
  | endWriter pruning =>
      cases up'
      exact exact.calm rfl rfl rfl rfl rfl rfl exact.flusher fun _ none => by cases none
  | released stopping =>
      obtain rfl := Option.some.inj (up.symm.trans up')
      exact exact
  | flushed flushed =>
      obtain rfl := Option.some.inj (up.symm.trans up')
      exact exact.calm rfl rfl rfl rfl rfl rfl exact.flusher exact.writer
  | stop =>
      cases up'
      exact exact.calm rfl rfl rfl rfl rfl rfl exact.flusher exact.writer
  | crash => cases up'

/-- A directory without a process from which nothing that was waited for is missing. -/
def Safe (c : Codec) (s : State) : Prop :=
  ∃ active n, s.survived ≤ n ∧ s.acknowledged ≤ n ∧ Logs s.history ∧
    Stored c s.disk s.history s.starts active n

theorem crash_segments (sunk : Sunk c s p) (noFault : s.fault = none) (kept keptTemporary : Nat) :
    ∃ k, (crash c s p kept keptTemporary).disk.segments = s.disk.segments.modify p.segment
      (fun bytes => bytes ++ (joined p.flusher.batch).take k) := by
  obtain ⟨file, inUse⟩ := sunk.here
  have synced := inUse.safe noFault
  refine ⟨max p.synced kept - file.length, Std.ExtTreeMap.ext_getElem? fun {k} => ?_⟩
  show (s.disk.segments.modify p.segment _)[k]? = _
  rw [getElem?_modify, getElem?_modify]
  split
  case isTrue same =>
    subst same
    rw [inUse.found, Option.map_some, Option.map_some, List.take_append,
      List.take_of_length_le (by rw [← synced]; exact le_max_left _ _)]
  case isFalse => rfl

theorem Exact.crashed (lossless : c.Lossless) (queued : Queued c s p) (sunk : Sunk c s p)
    (noFault : s.fault = none) (exact : Exact c s p) (up : s.process = some p)
    (turn : Turn c threshold s p action s') (down : s'.process = none) : Safe c s' := by
  cases turn with
  | @crash kept keptTemporary =>
      obtain ⟨k, segments⟩ := crash_segments (c := c) sunk noFault kept keptTemporary
      obtain ⟨more, within, keys, same, grown, -⟩ := records_grown lossless queued sunk noFault
        rfl segments
      refine ⟨p.segment, s.written + more.length, queued.survived.trans (Nat.le_add_right _ _),
        queued.acknowledged.trans (Nat.le_add_right _ _), exact.logs, ?_⟩
      exact exact.stored.grown keys rfl same grown (within.trans (List.take_prefix _ _))
  | released stopping => rw [up] at down; cases down
  | flushed flushed => rw [up] at down; cases down
  | @write outcome batch next turn => cases outcome <;> cases down
  | _ => cases down

theorem Exact.restarted (safe : Safe c s) :
    ∃ p, (restart c s).process = some p ∧ Exact c (restart c s) p := by
  obtain ⟨active, n, -, -, logs, stored⟩ := safe
  obtain ⟨history, starts, next⟩ := stored.restarted
  have short : Logs (s.history.take n) := logs.before (List.take_prefix _ _)
  obtain ⟨plain, alike⟩ := (plain_empty.replay (s.history.take n)).recompute short.backed
  have state := stored.recovered.2
  have length : (s.history.take n).length = n := by
    rw [List.length_take, Nat.min_eq_left stored.inside]
  have written : (restart c s).written = n := by
    show (restart c s).history.length = n
    rw [history, length]
  refine ⟨_, rfl, ?_, ?_, ?_, ?_, trivial, fun writer none => by cases none⟩
  · rw [history, starts, written]
    show Stored c _ _ _ (recover c s.disk).active n
    rw [stored.active_eq]
    exact next
  · show (recover c s.disk).state.Plain
    rw [state]
    exact plain
  · show (recover c s.disk).state.Alike _
    rw [state, history]
    exact alike
  · rw [history]
    exact short

end

section
variable {c : Codec} {threshold : Nat} {s s' : State} {action : Action}

theorem fault_next (noFault : s.fault = none) (clean : Clean s action)
    (taken : step c threshold s action = some s') : s'.fault = none := by
  cases here : s.process with
  | none =>
      rw [step_down here taken]
      rfl
  | some p =>
      cases step_turn here taken with
      | write turn =>
          obtain rfl : _ = Outcome.done := clean
          exact noFault
      | _ => exact noFault

structure Sound (c : Codec) (s : State) : Prop where
  logged : Logged c s
  noFault : s.fault = none
  up : ∀ p, s.process = some p → Exact c s p
  down : s.process = none → Safe c s

theorem sound_initial (initial : Initial s) : Sound c s := by
  refine ⟨logged_initial initial, ?_, fun p up => ?_, fun _ => ?_⟩
  · rw [initial]
  · rw [initial] at up
    cases up
  · subst initial
    refine ⟨1, 0, le_rfl, le_rfl, fun before record within => ?_, stored_empty⟩
    have := within.length_le
    simp at this

theorem Sound.next (lossless : c.Lossless) (sound : Sound c s) (clean : Clean s action)
    (taken : step c threshold s action = some s') : Sound c s' := by
  have awaited : Awaited s action := by
    cases action with
    | waitFlushed seq =>
        intro first failed
        rw [sound.noFault] at failed
        cases failed
    | openSegment => exact clean
    | _ => trivial
  have logged := sound.logged.next lossless awaited taken
  have noFault := fault_next sound.noFault clean taken
  cases here : s.process with
  | none =>
      obtain ⟨p, up, exact⟩ := Exact.restarted (sound.down here)
      rw [step_down here taken] at logged noFault ⊢
      refine ⟨logged, noFault, fun p' up' => ?_, fun down => ?_⟩
      · obtain rfl := Option.some.inj (up.symm.trans up')
        exact exact
      · rw [up] at down
        cases down
  | some p =>
      obtain ⟨queued, sunk⟩ := sound.logged.up p here
      have exact := sound.up p here
      have turn := step_turn here taken
      exact ⟨logged, noFault,
        fun p' up' => exact.turn lossless queued sunk sound.noFault here turn clean up',
        fun down => exact.crashed lossless queued sunk sound.noFault here turn down⟩

theorem sound_of_clean (lossless : c.Lossless)
    (reachable : Reachable (step c threshold) Initial Clean s) : Sound c s :=
  reachable.invariant (fun _ => sound_initial) fun _ _ _ sound clean taken =>
    sound.next lossless clean taken

end

/-- A recovery rebuilds the state that a prefix of the history describes, with all that survived
before and all that was waited for. -/
theorem recover_exact {c : Codec} {threshold : Nat} {s : State} (lossless : c.Lossless)
    (reachable : Reachable (step c threshold) Initial Clean s) (down : s.process = none) :
    ∃ n, s.survived ≤ n ∧ s.acknowledged ≤ n ∧ n ≤ s.history.length ∧
      (restart c s).history = s.history.take n ∧
      (recover c s.disk).state = (({} : MasterState).replay (s.history.take n)).recomputeRefcounts := by
  obtain ⟨active, n, survived, acknowledged, -, stored⟩ := (sound_of_clean lossless reachable).down down
  exact ⟨n, survived, acknowledged, stored.inside, stored.restarted.1, stored.recovered.2⟩

/-- The segment is rotated and pruned, and a crash takes a part of the next batch. -/
def interrupted : List Action :=
  [.recover, .append (.create ['/', 'a']), .takeBatch, .write .done, .waitFlushed 1, .checkSize,
    .openSegment, .startWriter, .saveCheckpoint, .append (.create ['/', 'a']), .renameCheckpoint,
    .prune, .takeBatch, .crash 3 0]

theorem recover_interrupted : ∃ s, run (step sample 1) {} interrupted = some s ∧ s.acknowledged = 1 ∧
    s.disk.segments.toList.length = 1 ∧ ∃ n, s.survived ≤ n ∧ s.acknowledged ≤ n ∧
      n ≤ s.history.length ∧ (restart sample s).history = s.history.take n ∧
      (recover sample s.disk).state =
        (({} : MasterState).replay (s.history.take n)).recomputeRefcounts := by
  obtain ⟨s, ran⟩ := Option.isSome_iff_exists.mp
    (by decide +kernel : (run (step sample 1) {} interrupted).isSome = true)
  have last : (run (step sample 1) {} interrupted).map (fun s =>
      (s.process.isNone, s.acknowledged, s.disk.segments.toList.length)) = some (true, 1, 1) := by
    decide +kernel
  simp only [ran, Option.map_some, Option.some.injEq, Prod.mk.injEq] at last
  obtain ⟨down, acknowledged, files⟩ := last
  exact ⟨s, ran, acknowledged, files, recover_exact sample_lossless
    (reachable_run rfl (by decide +kernel) ran) (Option.isNone_iff_eq_none.mp down)⟩

end Gfs.Master.OpLog
