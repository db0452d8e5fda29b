import Gfs.Chunkserver.ChunkStore
import Gfs.Common.Framing
import Gfs.Lib.Transition
import Gfs.Master.Checkpoint

/-!
# `master/oplog.cc`, `master/checkpoint.cc` and `Master::Recover`

The data directory and the operation log of one master over its restarts. The flusher and the
checkpoint writer are threads of their own: a step takes one of them to its next access to a file
or to shared memory, or makes the process crash there. A crash leaves any part of the bytes that
are not synced yet. The chunk table and the names are those that `Apply` makes of the records.
-/

namespace Gfs.Master.OpLog
open Framing

/-- zlib, and the code that protobuf generates: `none` where it cannot serialize or parse. -/
structure Codec where
  crc : Bytes → UInt32
  record : LogRecord → Option Bytes
  parseRecord : Bytes → Option LogRecord
  checkpoint : Checkpoint → Option Bytes
  parseCheckpoint : Bytes → Option Checkpoint

/-- What is serialized has less than 4 GiB and is parsed back. -/
structure Codec.Lossless (c : Codec) : Prop where
  record : ∀ (record : LogRecord) (payload : Bytes), c.record record = some payload →
    payload.length < 2 ^ 32 ∧ c.parseRecord payload = some record
  checkpoint : ∀ (checkpoint : Checkpoint) (payload : Bytes),
    c.checkpoint checkpoint = some payload →
      payload.length < 2 ^ 32 ∧ c.parseCheckpoint payload = some checkpoint

/-- The bytes of the record `Create("/a")` and of the checkpoint with this file. -/
def sample : Codec where
  crc := Chunkserver.Disk.crc32
  record record :=
    if record = .create ['/', 'a'] then some [0x0a, 0x04, 0x0a, 0x02, 0x2f, 0x61] else none
  parseRecord payload :=
    if payload = [0x0a, 0x04, 0x0a, 0x02, 0x2f, 0x61] then some (.create ['/', 'a']) else none
  checkpoint checkpoint :=
    if checkpoint = ⟨1, [(['/', 'a'], [])], []⟩ then
      some [0x08, 0x01, 0x12, 0x04, 0x0a, 0x02, 0x2f, 0x61]
    else none
  parseCheckpoint payload :=
    if payload = [0x08, 0x01, 0x12, 0x04, 0x0a, 0x02, 0x2f, 0x61] then
      some ⟨1, [(['/', 'a'], [])], []⟩
    else none

theorem sample_lossless : sample.Lossless where
  record record payload serialized := by
    simp only [sample] at serialized
    split at serialized
    case isTrue same =>
      cases serialized
      rw [same]
      exact ⟨by decide, rfl⟩
    case isFalse => cases serialized
  checkpoint checkpoint payload serialized := by
    simp only [sample] at serialized
    split at serialized
    case isTrue same =>
      cases serialized
      rw [same]
      exact ⟨by decide, rfl⟩
    case isFalse => cases serialized

/-! ## Files -/

/-- The files `oplog.%06llu`, `checkpoint.%06llu` and `checkpoint.%06llu.tmp` by their numbers. -/
structure Disk where
  segments : Std.ExtTreeMap Nat Bytes := ∅
  checkpoints : Std.ExtTreeMap Nat Bytes := ∅
  temporaries : Std.ExtTreeMap Nat Bytes := ∅

structure ReplayedSegment where
  records : List LogRecord
  tornTail : Bool
  validBytes : Nat

section
variable (c : Codec) (disk : Disk)

/-- Only names with six digits are listed. -/
def Disk.listSegments : List Nat := disk.segments.keys.filter (· < 10 ^ 6)

def Disk.listCheckpoints : List Nat := disk.checkpoints.keys.filter (· < 10 ^ 6)

def readSegment (bytes : Bytes) : ReplayedSegment :=
  let decoded := decodeRecords c.crc bytes
  { records := decoded.payloads.filterMap c.parseRecord
    tornTail := decoded.tornTail
    validBytes := decoded.consumed }

def readCheckpoint (bytes : Bytes) : Option Checkpoint :=
  let decoded := decodeRecords c.crc bytes
  if decoded.tornTail then none
  else
    match decoded.payloads with
    | [payload] => c.parseCheckpoint payload
    | _ => none

def loadLatest : Option (Nat × Checkpoint) :=
  disk.listCheckpoints.reverse.findSome? fun number =>
    (readCheckpoint c (disk.checkpoints.getD number [])).map (number, ·)

/-- The first segment that `Recover` replays, and the state that it starts from. -/
def loadState : Nat × MasterState :=
  match loadLatest c disk with
  | some (number, checkpoint) => if 0 < number then (number, .load checkpoint) else (1, {})
  | none => (1, {})

def truncateTorn (bytes : Bytes) : Bytes :=
  let replay := readSegment c bytes
  if replay.tornTail then bytes.take replay.validBytes else bytes

structure Recovered where
  state : MasterState
  segments : Std.ExtTreeMap Nat Bytes
  active : Nat
  records : List LogRecord

def recover : Recovered :=
  let (first, state) := loadState c disk
  let replayed := disk.listSegments.filter (first ≤ ·)
  let records := replayed.flatMap fun segment =>
    (readSegment c (disk.segments.getD segment [])).records
  { state := (state.replay records).recomputeRefcounts
    segments := replayed.foldl (fun segments segment => segments.modify segment (truncateTorn c))
      disk.segments
    active := max (disk.listSegments.getLast?.getD 1) first
    records }

end

/-! ## Threads -/

inductive Flusher
  | waiting
  | writing (batch : List (Nat × Bytes))
  | wrote
  /-- `Rotate` writes what is pending and holds the state mutex from here on. -/
  | draining (batch : List (Nat × Bytes))
  | opening
  /-- It waits for the previous checkpoint to be written. -/
  | joining (number : Nat) (checkpoint : Checkpoint)

inductive Writer
  | writing (number : Nat) (checkpoint : Checkpoint)
  | saved (number : Nat)
  | pruning (newest : Nat) (segments : List Nat)
  | pruningCheckpoints (numbers : List Nat)

/-- The memory of the master: `OpLog` and its sink, whose file is synced up to `synced`. -/
structure Process where
  live : MasterState
  pending : List (Nat × Bytes) := []
  nextSeq : Nat := 1
  flushedSeq : Nat := 0
  segment : Nat
  stopping : Bool := false
  size : Nat
  synced : Nat
  flusher : Flusher := .waiting
  writer : Option Writer := none

/-- The data directory and the process that runs on it. The rest only records the run: the records
that the last recovery read and those appended since, how many of them had survived, were waited
for and have gone to the sink, how many came before each segment, the first one of a batch that a
sink failed to write, and the segments that were pruned. -/
structure State where
  disk : Disk := {}
  process : Option Process := none
  history : List LogRecord := []
  survived : Nat := 0
  acknowledged : Nat := 0
  written : Nat := 0
  starts : Nat → Nat := fun _ => 0
  fault : Option Nat := none
  pruned : List (Nat × Bytes) := []

/-- How `Write` and `Sync` of a sink end: `Write` may stop early, or `Sync` may fail. -/
inductive Outcome
  | done
  | short (count : Nat)
  | unsynced
deriving DecidableEq

inductive Action
  | append (record : LogRecord)
  | takeBatch
  | write (outcome : Outcome)
  | checkSize
  | openSegment
  | startWriter
  | saveCheckpoint
  | renameCheckpoint
  | prune
  | waitFlushed (seq : Nat)
  | stop
  | crash (kept keptTemporary : Nat)
  | recover

def joined (batch : List (Nat × Bytes)) : Bytes := batch.flatMap (·.2)

def lastSeq (batch : List (Nat × Bytes)) : Nat := (batch.getLast?.map (·.1)).getD 0

def Flusher.batch : Flusher → List (Nat × Bytes)
  | .writing batch | .draining batch => batch
  | _ => []

/-- `Rotate` holds the state mutex. -/
def Flusher.rotating : Flusher → Bool
  | .draining _ | .opening => true
  | _ => false

/-- `GcPass` drops a chunk that no file refers to. -/
def loggable (live : MasterState) : LogRecord → Bool
  | .dropChunk handle => live.files.toList.all fun (_, file) => !file.chunks.contains handle
  | _ => true

section
variable (c : Codec) (threshold : Nat) (s : State) (p : Process)

/-- `Apply` and `Append` under the state mutex. -/
def append (record : LogRecord) : Option State :=
  if p.flusher.rotating || !loggable p.live record then none
  else (c.record record).map fun payload => { s with
    history := s.history ++ [record]
    process := some { p with
      live := p.live.apply record
      pending := p.pending ++ [(p.nextSeq, encodeRecord c.crc payload)]
      nextSeq := p.nextSeq + 1 } }

def takeBatch : Option State :=
  match p.flusher with
  | .waiting =>
      if p.pending.isEmpty then none
      else some { s with process := some { p with flusher := .writing p.pending, pending := [] } }
  | _ => none

/-- `WriteBatch` up to where it takes the mutex. -/
def writeSink (bytes : Bytes) (outcome : Outcome) : State :=
  let grow (more : Bytes) : Disk := { s.disk with
    segments := s.disk.segments.modify p.segment (· ++ more) }
  match outcome with
  | .done => { s with
      disk := grow bytes
      process := some { p with
        size := p.size + bytes.length
        synced := (s.disk.segments.getD p.segment []).length + bytes.length } }
  | .short count => { s with disk := grow (bytes.take count), process := some p }
  | .unsynced => { s with
      disk := grow bytes
      process := some { p with size := p.size + bytes.length } }

/-- `WriteBatch` moves `flushed_seq_` whatever the sink said. -/
def writeBatch (batch : List (Nat × Bytes)) (outcome : Outcome) (next : Flusher) : State :=
  let s' := writeSink s p (joined batch) outcome
  { s' with
    process := s'.process.map fun p' => { p' with
      flushedSeq := max p.flushedSeq (lastSeq batch)
      flusher := next }
    written := s.written + batch.length
    fault := if outcome = .done then s.fault else s.fault.or (some s.written) }

def write (outcome : Outcome) : Option State :=
  match p.flusher with
  | .writing batch => some (writeBatch s p batch outcome .wrote)
  | .draining batch => some (writeBatch s p batch outcome .opening)
  | _ => none

/-- The end of the loop of `Run`, with the start of `Rotate` when the segment is long enough. -/
def checkSize : Option State :=
  match p.flusher with
  | .wrote =>
      if p.size < threshold then some { s with process := some { p with flusher := .waiting } }
      else if p.pending.isEmpty then
        some { s with process := some { p with flusher := .opening } }
      else
        some { s with process := some { p with flusher := .draining p.pending, pending := [] } }
  | _ => none

def openSegment : Option State :=
  match p.flusher with
  | .opening =>
      let number := p.segment + 1
      let segments := s.disk.segments.insertIfNew number []
      let size := (segments.getD number []).length
      some { s with
        disk := { s.disk with segments }
        process := some { p with
          segment := number, size, synced := size, flusher := .joining number p.live.toCheckpoint }
        starts := Function.update s.starts number s.history.length }
  | _ => none

def startWriter : Option State :=
  match p.flusher, p.writer with
  | .joining number checkpoint, none =>
      some { s with process := some { p with
        flusher := .waiting, writer := some (.writing number checkpoint) } }
  | _, _ => none

/-- `WriteWholeFile` in `Checkpointer::Write`. -/
def saveCheckpoint : Option State :=
  match p.writer with
  | some (.writing number checkpoint) =>
      match c.checkpoint checkpoint with
      | none => some { s with process := some { p with writer := none } }
      | some payload => some { s with
          disk := { s.disk with
            temporaries := s.disk.temporaries.insert number (encodeRecord c.crc payload) }
          process := some { p with writer := some (.saved number) } }
  | _ => none

/-- `rename` in `Checkpointer::Write`, then the listing of the segments in `Prune`. -/
def renameCheckpoint : Option State :=
  match p.writer with
  | some (.saved number) =>
      some { s with
        disk := { s.disk with
          checkpoints := s.disk.checkpoints.insert number (s.disk.temporaries.getD number [])
          temporaries := s.disk.temporaries.erase number }
        process := some { p with
          writer := some (.pruning number (s.disk.listSegments.filter (· < number))) } }
  | _ => none

/-- `Prune` with `keep` = 2 removes file after file. -/
def prune : Option State :=
  match p.writer with
  | some (.pruning newest (segment :: rest)) =>
      some { s with
        disk := { s.disk with segments := s.disk.segments.erase segment }
        process := some { p with writer := some (.pruning newest rest) }
        pruned := s.pruned ++ [(segment, s.disk.segments.getD segment [])] }
  | some (.pruning _ []) =>
      let numbers := s.disk.listCheckpoints
      some { s with process := some { p with
        writer := some (.pruningCheckpoints (numbers.take (numbers.length - 2))) } }
  | some (.pruningCheckpoints (number :: rest)) =>
      some { s with
        disk := { s.disk with checkpoints := s.disk.checkpoints.erase number }
        process := some { p with writer := some (.pruningCheckpoints rest) } }
  | some (.pruningCheckpoints []) => some { s with process := some { p with writer := none } }
  | _ => none

def waitFlushed (seq : Nat) : Option State :=
  if p.stopping then some s
  else if p.flushedSeq < seq then none
  else some { s with acknowledged := max s.acknowledged (s.survived + seq) }

def stop : Option State := some { s with process := some { p with stopping := true } }

/-- Of the bytes behind the last sync any number stays, and any part of a temporary file. -/
def crash (kept keptTemporary : Nat) : State :=
  let cut (bytes : Bytes) : Bytes := (bytes ++ joined p.flusher.batch).take (max p.synced kept)
  let temporaries :=
    match p.writer with
    | some (.writing number checkpoint) =>
        s.disk.temporaries.insert number
          (((c.checkpoint checkpoint).map (encodeRecord c.crc)).getD [] |>.take keptTemporary)
    | _ => s.disk.temporaries
  { s with
    disk := { s.disk with segments := s.disk.segments.modify p.segment cut, temporaries }
    process := none }

/-- `Recover` and `Open` in a new process. -/
def restart : State :=
  let recovered := OpLog.recover c s.disk
  let segments := recovered.segments.insertIfNew recovered.active []
  let bytes := segments.getD recovered.active []
  let history := s.history.take (s.starts (loadState c s.disk).1) ++ recovered.records
  { disk := { s.disk with segments }
    process := some {
      live := recovered.state, segment := recovered.active
      size := bytes.length, synced := bytes.length }
    history
    survived := history.length
    acknowledged := history.length
    written := history.length
    starts := Function.update s.starts recovered.active
      (history.length - (readSegment c bytes).records.length) }

def step (s : State) (action : Action) : Option State :=
  match s.process with
  | none =>
      match action with
      | .recover => some (restart c s)
      | _ => none
  | some p =>
      match action with
      | .append record => append c s p record
      | .takeBatch => takeBatch s p
      | .write outcome => write s p outcome
      | .checkSize => checkSize threshold s p
      | .openSegment => openSegment s p
      | .startWriter => startWriter s p
      | .saveCheckpoint => saveCheckpoint c s p
      | .renameCheckpoint => renameCheckpoint s p
      | .prune => prune s p
      | .waitFlushed seq => waitFlushed s p seq
      | .stop => stop s p
      | .crash kept keptTemporary => some (crash c s p kept keptTemporary)
      | .recover => none

def Initial (s : State) : Prop := s = {}

end

/-! ## What a step does -/

/-- The steps of a running process. -/
inductive Turn (c : Codec) (threshold : Nat) (s : State) (p : Process) : Action → State → Prop
  | append {record : LogRecord} {payload : Bytes} (unlocked : p.flusher.rotating = false)
      (logged : loggable p.live record = true) (serialized : c.record record = some payload) :
      Turn c threshold s p (.append record) { s with
        history := s.history ++ [record]
        process := some { p with
          live := p.live.apply record
          pending := p.pending ++ [(p.nextSeq, encodeRecord c.crc payload)]
          nextSeq := p.nextSeq + 1 } }
  | takeBatch (waiting : p.flusher = .waiting) :
      Turn c threshold s p .takeBatch
        { s with process := some { p with flusher := .writing p.pending, pending := [] } }
  | write {outcome : Outcome} {batch : List (Nat × Bytes)} {next : Flusher}
      (turn : p.flusher = .writing batch ∧ next = .wrote ∨
        p.flusher = .draining batch ∧ next = .opening) :
      Turn c threshold s p (.write outcome) (writeBatch s p batch outcome next)
  | rest (wrote : p.flusher = .wrote) :
      Turn c threshold s p .checkSize { s with process := some { p with flusher := .waiting } }
  | drain {next : Flusher} (wrote : p.flusher = .wrote) (long : threshold ≤ p.size)
      (turn : p.pending = [] ∧ next = .opening ∨ next = .draining p.pending) :
      Turn c threshold s p .checkSize
        { s with process := some { p with flusher := next, pending := [] } }
  | openSegment {segments : Std.ExtTreeMap Nat Bytes} (opening : p.flusher = .opening)
      (created : segments = s.disk.segments.insertIfNew (p.segment + 1) []) :
      Turn c threshold s p .openSegment { s with
        disk := { s.disk with segments }
        process := some { p with
          segment := p.segment + 1
          size := (segments.getD (p.segment + 1) []).length
          synced := (segments.getD (p.segment + 1) []).length
          flusher := .joining (p.segment + 1) p.live.toCheckpoint }
        starts := Function.update s.starts (p.segment + 1) s.history.length }
  | startWriter {number : Nat} {checkpoint : Checkpoint}
      (joining : p.flusher = .joining number checkpoint) (free : p.writer = none) :
      Turn c threshold s p .startWriter { s with process := some { p with
        flusher := .waiting, writer := some (.writing number checkpoint) } }
  | giveUp {number : Nat} {checkpoint : Checkpoint}
      (writing : p.writer = some (.writing number checkpoint)) :
      Turn c threshold s p .saveCheckpoint
        { s with process := some { p with writer := none } }
  | saveCheckpoint {number : Nat} {checkpoint : Checkpoint} {payload : Bytes}
      (writing : p.writer = some (.writing number checkpoint))
      (serialized : c.checkpoint checkpoint = some payload) :
      Turn c threshold s p .saveCheckpoint { s with
        disk := { s.disk with
          temporaries := s.disk.temporaries.insert number (encodeRecord c.crc payload) }
        process := some { p with writer := some (.saved number) } }
  | renameCheckpoint {number : Nat} (saved : p.writer = some (.saved number)) :
      Turn c threshold s p .renameCheckpoint { s with
        disk := { s.disk with
          checkpoints := s.disk.checkpoints.insert number (s.disk.temporaries.getD number [])
          temporaries := s.disk.temporaries.erase number }
        process := some { p with
          writer := some (.pruning number (s.disk.listSegments.filter (· < number))) } }
  | pruneSegment {newest segment : Nat} {rest : List Nat}
      (pruning : p.writer = some (.pruning newest (segment :: rest))) :
      Turn c threshold s p .prune { s with
        disk := { s.disk with segments := s.disk.segments.erase segment }
        process := some { p with writer := some (.pruning newest rest) }
        pruned := s.pruned ++ [(segment, s.disk.segments.getD segment [])] }
  | listCheckpoints {newest : Nat} (pruning : p.writer = some (.pruning newest [])) :
      Turn c threshold s p .prune { s with process := some { p with
        writer := some (.pruningCheckpoints
          (s.disk.listCheckpoints.take (s.disk.listCheckpoints.length - 2))) } }
  | pruneCheckpoint {number : Nat} {rest : List Nat}
      (pruning : p.writer = some (.pruningCheckpoints (number :: rest))) :
      Turn c threshold s p .prune { s with
        disk := { s.disk with checkpoints := s.disk.checkpoints.erase number }
        process := some { p with writer := some (.pruningCheckpoints rest) } }
  | endWriter (pruning : p.writer = some (.pruningCheckpoints [])) :
      Turn c threshold s p .prune { s with process := some { p with writer := none } }
  | released {seq : Nat} (stopping : p.stopping = true) : Turn c threshold s p (.waitFlushed seq) s
  | flushed {seq : Nat} (flushed : seq ≤ p.flushedSeq) : Turn c threshold s p (.waitFlushed seq)
      { s with acknowledged := max s.acknowledged (s.survived + seq) }
  | stop : Turn c threshold s p .stop { s with process := some { p with stopping := true } }
  | crash {kept keptTemporary : Nat} :
      Turn c threshold s p (.crash kept keptTemporary) (crash c s p kept keptTemporary)

section
variable {c : Codec} {threshold : Nat} {s s' : State} {p : Process} {action : Action}

theorem step_down (down : s.process = none) (taken : step c threshold s action = some s') :
    s' = restart c s := by
  unfold step at taken
  rw [down] at taken
  cases action <;> cases taken
  rfl

theorem step_turn (up : s.process = some p) (taken : step c threshold s action = some s') :
    Turn c threshold s p action s' := by
  unfold step at taken
  rw [up] at taken
  cases action with
  | append record =>
      simp only [append] at taken
      split at taken
      · cases taken
      case isFalse fits =>
        obtain ⟨payload, serialized, rfl⟩ := Option.map_eq_some_iff.mp taken
        rw [Bool.or_eq_true, not_or, Bool.not_eq_true, Bool.not_eq_true, Bool.not_eq_false'] at fits
        exact .append fits.1 fits.2 serialized
  | takeBatch =>
      simp only [takeBatch] at taken
      split at taken
      · split at taken
        · cases taken
        · cases taken
          exact .takeBatch ‹_›
      · cases taken
  | write outcome =>
      simp only [write] at taken
      split at taken
      · cases taken
        exact .write (.inl ⟨‹_›, rfl⟩)
      · cases taken
        exact .write (.inr ⟨‹_›, rfl⟩)
      · cases taken
  | checkSize =>
      simp only [checkSize] at taken
      split at taken
      case h_1 wrote =>
        split at taken
        · cases taken
          exact .rest wrote
        · split at taken
          case isTrue empty =>
            cases taken
            have none : p.pending = [] := List.isEmpty_iff.mp empty
            have drained := Turn.drain (c := c) wrote (not_lt.mp ‹_›) (.inl ⟨none, rfl⟩) (s := s)
            rw [← none] at drained
            exact drained
          · cases taken
            exact .drain wrote (not_lt.mp ‹_›) (.inr rfl)
      · cases taken
  | openSegment =>
      simp only [openSegment] at taken
      split at taken
      · cases taken
        exact .openSegment ‹_› rfl
      · cases taken
  | startWriter =>
      simp only [startWriter] at taken
      split at taken
      · cases taken
        exact .startWriter ‹_› ‹_›
      · cases taken
  | saveCheckpoint =>
      simp only [saveCheckpoint] at taken
      split at taken
      · split at taken
        · cases taken
          exact .giveUp ‹_›
        · cases taken
          exact .saveCheckpoint ‹_› ‹_›
      · cases taken
  | renameCheckpoint =>
      simp only [renameCheckpoint] at taken
      split at taken
      · cases taken
        exact .renameCheckpoint ‹_›
      · cases taken
  | prune =>
      simp only [prune] at taken
      split at taken
      · cases taken
        exact .pruneSegment ‹_›
      · cases taken
        exact .listCheckpoints ‹_›
      · cases taken
        exact .pruneCheckpoint ‹_›
      · cases taken
        exact .endWriter ‹_›
      · cases taken
  | waitFlushed seq =>
      simp only [waitFlushed] at taken
      split at taken
      · cases taken
        exact .released ‹_›
      · split at taken
        · cases taken
        · cases taken
          exact .flushed (not_lt.mp ‹_›)
  | stop =>
      cases taken
      exact .stop
  | crash kept keptTemporary =>
      cases taken
      exact .crash
  | recover => cases taken

end

end Gfs.Master.OpLog
