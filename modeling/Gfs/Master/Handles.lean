import Gfs.Master.Recovery

/-!
# `Master::AllocHandle`

A call logs the next handle and returns it when the record is flushed, so the record survives every
later crash and the handle is never the next one again (`handles_fresh`). `AddChunk` and
`CopyOnWrite` put the handles that they were given into files or give them up.
-/

namespace Gfs.Master

def LogRecord.given : LogRecord → Option Handle
  | .allocHandle handle | .addChunk _ _ handle | .replaceChunk _ _ handle => some handle
  | _ => none

namespace MasterState

section
variable {s : MasterState} {handle other : Handle} {path : Str} {index : Nat}

theorem nextHandle_le_refer : s.nextHandle ≤ (s.refer handle).nextHandle := Nat.le_max_left _ _

theorem mem_refer_replaced {chunks : ChunkTable} {files : Namespace}
    (kept : ∀ handle ∈ chunks, handle ∈ s.chunks)
    (member : other ∈ ({ s with files, chunks }.refer handle).chunks) :
    other ∈ s.chunks ∨ other = handle :=
  (mem_refer.mp member).symm.imp_left (kept other)

theorem raises_applyReplaceChunk : s.nextHandle ≤ (s.applyReplaceChunk path index handle).nextHandle ∧
    ∀ other ∈ (s.applyReplaceChunk path index handle).chunks, other ∈ s.chunks ∨ other = handle := by
  unfold applyReplaceChunk
  split
  · exact ⟨le_rfl, fun other member => .inl member⟩
  · split
    · exact ⟨le_rfl, fun other member => .inl member⟩
    · split
      · exact ⟨le_rfl, fun other member => .inl member⟩
      · refine ⟨nextHandle_le_refer, fun other member => mem_refer_replaced ?_ member⟩
        exact fun handle member => Std.ExtTreeMap.mem_modify.mp member

theorem raises_applyAddChunk : s.nextHandle ≤ (s.applyAddChunk path index handle).nextHandle ∧
    ∀ other ∈ (s.applyAddChunk path index handle).chunks, other ∈ s.chunks ∨ other = handle := by
  unfold applyAddChunk
  split
  · exact ⟨le_rfl, fun other member => .inl member⟩
  · split
    · split
      · exact ⟨le_rfl, fun other member => .inl member⟩
      · exact raises_applyReplaceChunk
    · split
      · exact ⟨le_rfl, fun other member => .inl member⟩
      · exact ⟨nextHandle_le_refer, fun other member =>
          mem_refer_replaced (fun handle member => member) member⟩

theorem raises_applySnapshot {source target : Str} :
    (s.applySnapshot source target).nextHandle = s.nextHandle ∧
      ∀ other ∈ (s.applySnapshot source target).chunks, other ∈ s.chunks := by
  unfold applySnapshot
  generalize s.files.subtree source true = entries
  induction entries generalizing s with
  | nil => exact ⟨rfl, fun other member => member⟩
  | cons entry entries ih =>
      obtain ⟨next, chunks⟩ := ih (s := copyFile source target s entry)
      have one : (copyFile source target s entry).nextHandle = s.nextHandle ∧
          ∀ other ∈ (copyFile source target s entry).chunks, other ∈ s.chunks := by
        unfold copyFile
        dsimp only
        split
        · exact ⟨rfl, fun other member => member⟩
        · exact ⟨rfl, fun other member => mem_foldl_modify.mp member⟩
      exact ⟨next.trans one.1, fun other member => one.2 other (chunks other member)⟩

/-- A record raises the next handle and brings in no handle but its own. -/
theorem raises_apply (s : MasterState) (record : LogRecord) :
    s.nextHandle ≤ (s.apply record).nextHandle ∧
      ∀ other ∈ (s.apply record).chunks, other ∈ s.chunks ∨ record.given = some other := by
  cases record with
  | create path => exact ⟨le_rfl, fun other member => .inl member⟩
  | rename source target =>
      show _ ≤ (s.applyRename source target).nextHandle ∧ ∀ other ∈ (s.applyRename source target).chunks, _
      unfold applyRename
      split <;> exact ⟨le_rfl, fun other member => .inl member⟩
  | remove path =>
      show _ ≤ (s.applyRemove path).nextHandle ∧ ∀ other ∈ (s.applyRemove path).chunks, _
      unfold applyRemove
      split
      · exact ⟨le_rfl, fun other member => .inl member⟩
      · exact ⟨le_rfl, fun other member => .inl (mem_foldl_modify.mp member)⟩
  | allocHandle handle => exact ⟨Nat.le_max_left _ _, fun other member => .inl member⟩
  | addChunk path index handle =>
      exact ⟨raises_applyAddChunk.1, fun other member =>
        (raises_applyAddChunk.2 other member).imp_right fun same => congrArg some same.symm⟩
  | replaceChunk path index handle =>
      exact ⟨raises_applyReplaceChunk.1, fun other member =>
        (raises_applyReplaceChunk.2 other member).imp_right fun same => congrArg some same.symm⟩
  | bumpVersion handle version =>
      exact ⟨le_rfl, fun other member => .inl (Std.ExtTreeMap.mem_modify.mp member)⟩
  | snapshot source target =>
      exact ⟨raises_applySnapshot.1.ge, fun other member => .inl (raises_applySnapshot.2 other member)⟩
  | dropChunk handle =>
      exact ⟨le_rfl, fun other member => .inl (Std.ExtTreeMap.mem_of_mem_erase member)⟩
  | bodyNotSet => exact ⟨le_rfl, fun other member => .inl member⟩

theorem raises_replay (s : MasterState) (records : List LogRecord) :
    s.nextHandle ≤ (s.replay records).nextHandle ∧
      ∀ other ∈ (s.replay records).chunks,
        other ∈ s.chunks ∨ ∃ record ∈ records, record.given = some other := by
  induction records generalizing s with
  | nil => exact ⟨le_rfl, fun other member => .inl member⟩
  | cons record records ih =>
      obtain ⟨next, chunks⟩ := s.raises_apply record
      obtain ⟨later, among⟩ := ih (s.apply record)
      refine ⟨next.trans later, fun other member => ?_⟩
      rcases among other member with before | ⟨later, inRest, gives⟩
      · rcases chunks other before with old | gives
        · exact .inl old
        · exact .inr ⟨record, List.mem_cons_self, gives⟩
      · exact .inr ⟨later, List.mem_cons_of_mem _ inRest, gives⟩

theorem lt_nextHandle_of_mem {records : List LogRecord} (logged : .allocHandle handle ∈ records)
    (low : handle < 2 ^ 64 - 1) : handle < (s.replay records).nextHandle := by
  induction records generalizing s with
  | nil => cases logged
  | cons record records ih =>
      rcases List.mem_cons.mp logged with rfl | later
      · obtain ⟨next, -⟩ := (s.apply (.allocHandle handle)).raises_replay records
        have raised : u64 (handle + 1) ≤ (s.apply (.allocHandle handle)).nextHandle :=
          Nat.le_max_right _ _
        rw [u64_of_lt (Nat.add_lt_of_lt_sub low)] at raised
        exact Nat.lt_of_succ_le (raised.trans next)
      · exact ih later

end

end MasterState

namespace AllocHandle
open Lib.Transition Lib.Maps Framing OpLog

/-- The log with the calls that wait for their records, by the numbers of these, the handles that
were returned and are in no file yet, and all that were ever returned. -/
structure State where
  log : OpLog.State := {}
  waiting : List (Nat × Handle) := []
  ready : List Handle := []
  returned : List Handle := []

inductive Action
  | allocHandle
  | returns (call : Nat × Handle)
  /-- `AddChunk` or `CopyOnWrite` logs its chunk. -/
  | refer (record : LogRecord)
  | erase (handle : Handle)
  | log (action : OpLog.Action)

section
variable (c : Codec) (threshold : Nat) (s : State)

/-- `AllocHandle` up to `WaitFlushed`. The workers have ended when the log is stopped. -/
def allocHandle : Option State :=
  match s.log.process with
  | none => none
  | some p =>
      if p.stopping then none
      else
        (OpLog.step c threshold s.log (.append (.allocHandle p.live.nextHandle))).map fun log =>
          { s with log, waiting := s.waiting ++ [(p.nextSeq, p.live.nextHandle)] }

def returns (call : Nat × Handle) : Option State :=
  if call ∈ s.waiting then
    (OpLog.step c threshold s.log (.waitFlushed call.1)).map fun log =>
      { log
        waiting := s.waiting.erase call
        ready := s.ready ++ [call.2]
        returned := s.returned ++ [call.2] }
  else none

def refer (record : LogRecord) : Option State :=
  match record with
  | .addChunk _ _ handle | .replaceChunk _ _ handle =>
      if handle ∈ s.ready then
        (OpLog.step c threshold s.log (.append record)).map fun log =>
          { s with log, ready := s.ready.erase handle }
      else none
  | _ => none

/-- Whether the step is one of other threads. `Stop` joins the workers before it stops the log. -/
def apart : OpLog.Action → Bool
  | .append record => record.given.isNone
  | .stop => s.waiting.isEmpty
  | _ => true

def other (action : OpLog.Action) : Option State :=
  if apart s action then
    (OpLog.step c threshold s.log action).map fun log =>
      if log.process.isSome then { s with log } else { log, returned := s.returned }
  else none

def step (s : State) : Action → Option State
  | .allocHandle => allocHandle c threshold s
  | .returns call => returns c threshold s call
  | .refer record => refer c threshold s record
  | .erase handle => some { s with ready := s.ready.erase handle }
  | .log action => other c threshold s action

def Initial (s : State) : Prop := s = {}

/-- Writes succeed, segment numbers have six digits, and there are handles left. -/
def Permitted (s : State) : Action → Prop
  | .allocHandle => ∀ p, s.log.process = some p → p.live.nextHandle < 2 ^ 64 - 1
  | .log action => Clean s.log action
  | _ => True

instance (s : State) : (action : Action) → Decidable (Permitted s action)
  | .allocHandle => decidable_of_iff (s.log.process.all (·.live.nextHandle < 2 ^ 64 - 1) = true) (by
      cases up : s.log.process <;> simp [Permitted, up])
  | .log action => inferInstanceAs (Decidable (Clean s.log action))
  | .returns _ | .refer _ | .erase _ => isTrue trivial

end

/-! ## What a step does -/

inductive Turn (c : Codec) (threshold : Nat) (s : State) : Action → State → Prop
  | allocHandle {p : Process} {log : OpLog.State} (up : s.log.process = some p)
      (running : p.stopping = false)
      (logged : OpLog.step c threshold s.log (.append (.allocHandle p.live.nextHandle)) = some log) :
      Turn c threshold s .allocHandle
        { s with log, waiting := s.waiting ++ [(p.nextSeq, p.live.nextHandle)] }
  | returns {call : Nat × Handle} {log : OpLog.State} (waits : call ∈ s.waiting)
      (flushed : OpLog.step c threshold s.log (.waitFlushed call.1) = some log) :
      Turn c threshold s (.returns call)
        { log
          waiting := s.waiting.erase call
          ready := s.ready ++ [call.2]
          returned := s.returned ++ [call.2] }
  | refer {record : LogRecord} {handle : Handle} {log : OpLog.State}
      (gives : record.given = some handle) (own : handle ∈ s.ready)
      (other : ∀ handle, record ≠ .allocHandle handle)
      (logged : OpLog.step c threshold s.log (.append record) = some log) :
      Turn c threshold s (.refer record) { s with log, ready := s.ready.erase handle }
  | erase {handle : Handle} :
      Turn c threshold s (.erase handle) { s with ready := s.ready.erase handle }
  | kept {action : OpLog.Action} {log : OpLog.State} (apart : apart s action = true)
      (taken : OpLog.step c threshold s.log action = some log) (up : log.process.isSome = true) :
      Turn c threshold s (.log action) { s with log }
  | lost {action : OpLog.Action} {log : OpLog.State}
      (taken : OpLog.step c threshold s.log action = some log) (down : log.process = none) :
      Turn c threshold s (.log action) { log, returned := s.returned }

section
variable {c : Codec} {threshold : Nat} {s s' : State} {action : Action}

theorem step_turn (taken : step c threshold s action = some s') : Turn c threshold s action s' := by
  cases action with
  | allocHandle =>
      have taken : allocHandle c threshold s = some s' := taken
      unfold AllocHandle.allocHandle at taken
      split at taken
      · cases taken
      · split at taken
        · cases taken
        · obtain ⟨log, logged, rfl⟩ := Option.map_eq_some_iff.mp taken
          exact .allocHandle ‹_› (Bool.eq_false_iff.mpr ‹_›) logged
  | returns call =>
      have taken : returns c threshold s call = some s' := taken
      unfold AllocHandle.returns at taken
      split at taken
      · obtain ⟨log, flushed, rfl⟩ := Option.map_eq_some_iff.mp taken
        exact .returns ‹_› flushed
      · cases taken
  | refer record =>
      have taken : refer c threshold s record = some s' := taken
      unfold AllocHandle.refer at taken
      split at taken
      · split at taken
        · obtain ⟨log, logged, rfl⟩ := Option.map_eq_some_iff.mp taken
          exact .refer rfl ‹_› nofun logged
        · cases taken
      · split at taken
        · obtain ⟨log, logged, rfl⟩ := Option.map_eq_some_iff.mp taken
          exact .refer rfl ‹_› nofun logged
        · cases taken
      · cases taken
  | erase handle =>
      cases taken
      exact .erase
  | log action =>
      have taken : other c threshold s action = some s' := taken
      unfold AllocHandle.other at taken
      split at taken
      · obtain ⟨log, moved, rfl⟩ := Option.map_eq_some_iff.mp taken
        split
        case isTrue up => exact .kept ‹_› moved up
        case isFalse down => exact .lost moved (by simpa using down)
      · cases taken

end

/-! ## Records that stay -/

section
variable {c : Codec} {threshold : Nat} {s s' : OpLog.State} {action : OpLog.Action}

theorem append_up {record : LogRecord} (taken : OpLog.step c threshold s (.append record) = some s') :
    ∃ p, s.process = some p := by
  cases here : s.process with
  | none =>
      unfold OpLog.step at taken
      rw [here] at taken
      cases taken
  | some p => exact ⟨p, rfl⟩

theorem history_kept {p : Process} (up : s.process = some p)
    (taken : OpLog.step c threshold s action = some s') :
    s.history <+: s'.history ∧ s'.survived = s.survived ∧ s.acknowledged ≤ s'.acknowledged ∧
      ∀ record ∈ s'.history, record ∈ s.history ∨ action = .append record := by
  cases OpLog.step_turn up taken with
  | append unlocked logged serialized =>
      refine ⟨List.prefix_append _ _, rfl, le_rfl, fun other member => ?_⟩
      rcases List.mem_append.mp member with before | last
      · exact .inl before
      · rw [List.mem_singleton.mp last]
        exact .inr rfl
  | @write outcome batch next turn =>
      cases outcome <;> exact ⟨List.prefix_rfl, rfl, le_rfl, fun other member => .inl member⟩
  | flushed flushed => exact ⟨List.prefix_rfl, rfl, le_max_left _ _, fun other member => .inl member⟩
  | _ => exact ⟨List.prefix_rfl, rfl, le_rfl, fun other member => .inl member⟩

/-- No step loses a record that was waited for, crashes and recoveries included. -/
theorem acknowledged_kept (sound : OpLog.Sound c s) (taken : OpLog.step c threshold s action = some s') :
    (∀ i record, i < s.acknowledged → s.history[i]? = some record →
      i < s'.acknowledged ∧ s'.history[i]? = some record) ∧
        ∀ record ∈ s'.history, record ∈ s.history ∨ action = .append record := by
  cases here : s.process with
  | some p =>
      obtain ⟨longer, -, more, among⟩ := history_kept here taken
      refine ⟨fun i record inside found => ⟨Nat.lt_of_lt_of_le inside more, ?_⟩, among⟩
      obtain ⟨rest, same⟩ := longer
      rw [← same, List.getElem?_append_left (List.getElem?_eq_some_iff.mp found).1]
      exact found
  | none =>
      obtain ⟨active, n, -, waited, -, stored⟩ := sound.down here
      rw [OpLog.step_down here taken]
      obtain ⟨history, -⟩ := stored.restarted
      have length : (restart c s).acknowledged = n := by
        show (restart c s).history.length = n
        rw [history, List.length_take, Nat.min_eq_left stored.inside]
      refine ⟨fun i record inside found => ?_, fun record member => .inl ?_⟩
      · rw [length, history, List.getElem?_take, if_pos (Nat.lt_of_lt_of_le inside waited)]
        exact ⟨Nat.lt_of_lt_of_le inside waited, found⟩
      · rw [history] at member
        exact List.mem_of_mem_take member

theorem running_kept {p p' : Process} (up : s.process = some p) (up' : s'.process = some p')
    (taken : OpLog.step c threshold s action = some s') :
    p'.stopping = true → p.stopping = true ∨ action = .stop := by
  cases OpLog.step_turn up taken with
  | @write outcome batch next turn => cases outcome <;> cases up' <;> exact .inl
  | released stopping =>
      obtain rfl := Option.some.inj (up.symm.trans up')
      exact .inl
  | flushed flushed =>
      obtain rfl := Option.some.inj (up.symm.trans up')
      exact .inl
  | stop => exact fun _ => .inr rfl
  | crash => cases up'
  | _ =>
      cases up'
      exact .inl

end

/-! ## Every run -/

structure Issued (c : Codec) (s : State) : Prop where
  sound : OpLog.Sound c s.log
  nodup : (s.returned ++ s.waiting.map (·.2)).Nodup
  returned : ∀ handle ∈ s.returned, ∃ i, i < s.log.acknowledged ∧
    s.log.history[i]? = some (.allocHandle handle)
  waiting : ∀ call ∈ s.waiting, ∃ i, i + 1 = s.log.survived + call.1 ∧
    s.log.history[i]? = some (.allocHandle call.2)
  ready : ∀ handle ∈ s.ready, handle ∈ s.returned
  running : ∀ p, s.log.process = some p → p.stopping = true → s.waiting = []
  down : s.log.process = none → s.waiting = []
  low : ∀ record ∈ s.log.history, ∀ handle, record.given = some handle → handle < 2 ^ 64 - 1

section
variable {c : Codec} {threshold : Nat} {s s' : State} {action : Action}

theorem Issued.logged (issued : Issued c s) {handle : Handle}
    (given : handle ∈ s.returned ∨ handle ∈ s.waiting.map (·.2)) :
    .allocHandle handle ∈ s.log.history := by
  rcases given with done | waits
  · obtain ⟨i, -, found⟩ := issued.returned handle done
    exact List.mem_of_getElem? found
  · obtain ⟨call, member, rfl⟩ := List.mem_map.mp waits
    obtain ⟨i, -, found⟩ := issued.waiting call member
    exact List.mem_of_getElem? found

theorem Issued.below (issued : Issued c s) {p : Process} (up : s.log.process = some p)
    {handle : Handle} (given : handle ∈ s.returned ∨ handle ∈ s.waiting.map (·.2)) :
    handle < p.live.nextHandle := by
  have logged := issued.logged given
  rw [(issued.sound.up p up).alike.nextHandle]
  exact MasterState.lt_nextHandle_of_mem logged (issued.low _ logged handle rfl)

theorem Issued.chunk_below (issued : Issued c s) {p : Process} (up : s.log.process = some p)
    {handle : Handle} (member : handle ∈ p.live.chunks) : handle < p.live.nextHandle := by
  have exact := issued.sound.up p up
  have replayed : handle ∈ (({} : MasterState).replay s.log.history).chunks := by
    have same := exact.alike.chunks handle
    rw [Std.ExtTreeMap.mem_iff_isSome_getElem?, ← Option.isSome_map (f := ChunkMeta.forget)] at member ⊢
    rwa [← same]
  have low : handle < 2 ^ 64 - 1 := by
    rcases (MasterState.raises_replay {} s.log.history).2 handle replayed with none | ⟨record, logged, gives⟩
    · exact absurd none Std.ExtTreeMap.not_mem_empty
    · exact issued.low record logged handle gives
  have above := exact.plain.above handle member
  rw [u64_of_lt (Nat.add_lt_of_lt_sub low)] at above
  exact Nat.lt_of_succ_le above

theorem Issued.file_below (issued : Issued c s) {p : Process} (up : s.log.process = some p)
    {path : Str} {file : FileMeta} {handle : Handle} (found : p.live.files[path]? = some file)
    (member : handle ∈ file.chunks) : handle < p.live.nextHandle := by
  have exact := issued.sound.up p up
  refine issued.chunk_below up ?_
  have backed := exact.logs.backed path file (exact.alike.files ▸ found) handle member
  have same := exact.alike.chunks handle
  rw [Std.ExtTreeMap.mem_iff_isSome_getElem?, ← Option.isSome_map (f := ChunkMeta.forget)] at backed ⊢
  rwa [same]

theorem Issued.returned_kept (issued : Issued c s) {log : OpLog.State} {action : OpLog.Action}
    (taken : OpLog.step c threshold s.log action = some log) {handle : Handle}
    (done : handle ∈ s.returned) :
    ∃ i, i < log.acknowledged ∧ log.history[i]? = some (.allocHandle handle) := by
  obtain ⟨i, inside, found⟩ := issued.returned handle done
  exact ⟨i, (acknowledged_kept issued.sound taken).1 i _ inside found⟩

theorem Issued.low_kept (issued : Issued c s) {log : OpLog.State} {action : OpLog.Action}
    (taken : OpLog.step c threshold s.log action = some log)
    (new : ∀ record, action = .append record → ∀ handle, record.given = some handle →
      handle < 2 ^ 64 - 1) :
    ∀ record ∈ log.history, ∀ handle, record.given = some handle → handle < 2 ^ 64 - 1 := by
  intro record member
  rcases (acknowledged_kept issued.sound taken).2 record member with before | same
  · exact issued.low record before
  · exact new record same

theorem Issued.waiting_kept (issued : Issued c s) {log : OpLog.State} {action : OpLog.Action}
    {p : Process} (up : s.log.process = some p)
    (taken : OpLog.step c threshold s.log action = some log) {call : Nat × Handle}
    (waits : call ∈ s.waiting) :
    ∃ i, i + 1 = log.survived + call.1 ∧ log.history[i]? = some (.allocHandle call.2) := by
  obtain ⟨i, place, found⟩ := issued.waiting call waits
  obtain ⟨⟨rest, same⟩, survived, -, -⟩ := history_kept up taken
  refine ⟨i, survived.symm ▸ place, ?_⟩
  rw [← same, List.getElem?_append_left (List.getElem?_eq_some_iff.mp found).1]
  exact found

theorem Issued.allocated (lossless : c.Lossless) (issued : Issued c s) {p : Process}
    {log : OpLog.State} (up : s.log.process = some p) (running : p.stopping = false)
    (below : p.live.nextHandle < 2 ^ 64 - 1)
    (taken : OpLog.step c threshold s.log (.append (.allocHandle p.live.nextHandle)) = some log) :
    Issued c { s with log, waiting := s.waiting ++ [(p.nextSeq, p.live.nextHandle)] } := by
  have clean : OpLog.Clean s.log (.append (.allocHandle p.live.nextHandle)) := trivial
  have sound := issued.sound.next lossless clean taken
  obtain ⟨queued, -⟩ := issued.sound.logged.up p up
  have fresh : ∀ handle ∈ s.returned ++ s.waiting.map (·.2), handle ≠ p.live.nextHandle :=
    fun handle given => (issued.below up (List.mem_append.mp given)).ne
  refine ⟨sound, ?_, fun handle done => issued.returned_kept taken done, fun call waits => ?_,
    issued.ready, ?_, ?_, issued.low_kept taken ?_⟩
  · rw [List.map_append, List.map_singleton, ← List.append_assoc]
    refine List.nodup_append.mpr ⟨issued.nodup, List.nodup_singleton _, fun handle given other is => ?_⟩
    rw [List.mem_singleton.mp is]
    exact fresh handle given
  · rcases List.mem_append.mp waits with before | new
    · exact issued.waiting_kept up taken before
    · rw [List.mem_singleton.mp new]
      cases OpLog.step_turn up taken with
      | append unlocked logged serialized =>
          refine ⟨s.log.history.length, queued.next.symm, ?_⟩
          exact List.getElem?_concat_length
  · intro p' up' stopping
    cases OpLog.step_turn up taken with
    | append unlocked logged serialized =>
        cases up'
        have stopping : p.stopping = true := stopping
        rw [running] at stopping
        cases stopping
  · intro down
    cases OpLog.step_turn up taken with
    | append unlocked logged serialized => cases down
  · rintro record ⟨⟩ handle ⟨⟩
    exact below

theorem Issued.returns (lossless : c.Lossless) (issued : Issued c s) {call : Nat × Handle}
    {log : OpLog.State} (waits : call ∈ s.waiting)
    (taken : OpLog.step c threshold s.log (.waitFlushed call.1) = some log) :
    Issued c { log
               waiting := s.waiting.erase call
               ready := s.ready ++ [call.2]
               returned := s.returned ++ [call.2] } := by
  have clean : OpLog.Clean s.log (.waitFlushed call.1) := trivial
  have sound := issued.sound.next lossless clean taken
  obtain ⟨p, up⟩ : ∃ p, s.log.process = some p := by
    refine Option.ne_none_iff_exists'.mp fun down => ?_
    rw [issued.down down] at waits
    cases waits
  have running : p.stopping = false := by
    refine Bool.eq_false_iff.mpr fun stopping => ?_
    rw [issued.running p up stopping] at waits
    cases waits
  have moved : (s.returned ++ s.waiting.map (·.2)).Perm
      (s.returned ++ [call.2] ++ (s.waiting.erase call).map (·.2)) := by
    rw [List.append_assoc]
    exact ((List.perm_cons_erase waits).map _).append_left _
  have same : log = { s.log with acknowledged := max s.log.acknowledged (s.log.survived + call.1) } := by
    cases OpLog.step_turn up taken with
    | released stopping =>
        rw [running] at stopping
        cases stopping
    | flushed flushed => rfl
  refine ⟨sound, moved.nodup_iff.mp issued.nodup, fun handle done => ?_, fun other there => ?_,
    fun handle there => ?_, ?_, ?_, issued.low_kept taken fun record none => by cases none⟩
  · rcases List.mem_append.mp done with before | new
    · exact issued.returned_kept taken before
    · rw [List.mem_singleton.mp new]
      obtain ⟨i, place, found⟩ := issued.waiting call waits
      rw [same]
      refine ⟨i, Nat.lt_of_lt_of_le ?_ (le_max_right _ _), found⟩
      exact Nat.lt_of_succ_le place.le
  · exact issued.waiting_kept up taken (List.mem_of_mem_erase there)
  · rcases List.mem_append.mp there with before | new
    · exact List.mem_append_left _ (issued.ready handle before)
    · exact List.mem_append_right _ new
  · rw [same]
    intro p' up' stopping
    obtain rfl := Option.some.inj (up.symm.trans up')
    rw [running] at stopping
    cases stopping
  · rw [same]
    intro down
    rw [show s.log.process = none from down] at up
    cases up

theorem Issued.referred (lossless : c.Lossless) (issued : Issued c s) {record : LogRecord}
    {handle : Handle} {log : OpLog.State} (gives : record.given = some handle)
    (own : handle ∈ s.ready) (taken : OpLog.step c threshold s.log (.append record) = some log) :
    Issued c { s with log, ready := s.ready.erase handle } := by
  have clean : OpLog.Clean s.log (.append record) := trivial
  have sound := issued.sound.next lossless clean taken
  obtain ⟨p, up⟩ := append_up taken
  have logged := issued.logged (.inl (issued.ready handle own))
  refine ⟨sound, issued.nodup, fun other done => issued.returned_kept taken done,
    fun call waits => issued.waiting_kept up taken waits,
    fun other there => issued.ready other (List.mem_of_mem_erase there), ?_, ?_,
    issued.low_kept taken ?_⟩
  · intro p' up' stopping
    rcases running_kept up up' taken stopping with before | other
    · exact issued.running p up before
    · cases other
  · intro down
    cases OpLog.step_turn up taken with
    | append unlocked _ serialized => cases down
  · rintro _ ⟨⟩ other same
    obtain rfl := Option.some.inj (gives.symm.trans same)
    exact issued.low _ logged handle rfl

theorem Issued.kept (lossless : c.Lossless) (issued : Issued c s) {action : OpLog.Action}
    {log : OpLog.State} (clean : Clean s.log action) (apart : apart s action = true)
    (taken : OpLog.step c threshold s.log action = some log) (up' : log.process.isSome = true) :
    Issued c { s with log } := by
  have sound := issued.sound.next lossless clean taken
  have low := issued.low_kept taken (fun record same handle gives => by
    rw [same] at apart
    have none : record.given.isNone = true := apart
    rw [gives] at none
    cases none)
  refine ⟨sound, issued.nodup, fun handle done => issued.returned_kept taken done, ?_, issued.ready,
    ?_, ?_, low⟩
  · intro call waits
    obtain ⟨p, up⟩ : ∃ p, s.log.process = some p := by
      refine Option.ne_none_iff_exists'.mp fun down => ?_
      rw [issued.down down] at waits
      cases waits
    exact issued.waiting_kept up taken waits
  · intro p' up stopping
    cases here : s.log.process with
    | none => exact issued.down here
    | some p =>
        rcases running_kept here up taken stopping with before | stop
        · exact issued.running p here before
        · rw [stop] at apart
          exact List.isEmpty_iff.mp apart
  · intro down
    rw [show log.process = none from down] at up'
    cases up'

theorem Issued.lost (lossless : c.Lossless) (issued : Issued c s) {action : OpLog.Action}
    {log : OpLog.State} (clean : Clean s.log action)
    (taken : OpLog.step c threshold s.log action = some log) (down : log.process = none) :
    Issued c { log, returned := s.returned } := by
  have sound := issued.sound.next lossless clean taken
  have unique : s.returned.Nodup := (List.nodup_append.mp issued.nodup).1
  refine ⟨sound, by simpa using unique, fun handle done => issued.returned_kept taken done,
    nofun, nofun, fun _ _ _ => rfl, fun _ => rfl, issued.low_kept taken fun record append => ?_⟩
  subst append
  obtain ⟨p, up⟩ := append_up taken
  cases OpLog.step_turn up taken with
  | append unlocked logged serialized => cases down

theorem Issued.next (lossless : c.Lossless) (issued : Issued c s) (permitted : Permitted s action)
    (taken : step c threshold s action = some s') : Issued c s' := by
  cases step_turn taken with
  | allocHandle up running logged =>
      exact issued.allocated lossless up running (permitted _ up) logged
  | returns waits flushed => exact issued.returns lossless waits flushed
  | refer gives own other logged => exact issued.referred lossless gives own logged
  | erase =>
      exact ⟨issued.sound, issued.nodup, issued.returned, issued.waiting,
        fun handle there => issued.ready handle (List.mem_of_mem_erase there), issued.running,
        issued.down, issued.low⟩
  | kept apart moved up => exact issued.kept lossless permitted apart moved up
  | lost moved down => exact issued.lost lossless permitted moved down

theorem issued_initial (initial : Initial s) : Issued c s := by
  subst initial
  exact ⟨sound_initial rfl, List.nodup_nil, nofun, nofun, nofun, nofun, fun _ => rfl, nofun⟩

end

/-- No handle is returned twice, and the next one is above all that a file, the chunk table or a
call has. -/
theorem handles_fresh {c : Codec} {threshold : Nat} {s : State} (lossless : c.Lossless)
    (reachable : Reachable (step c threshold) Initial Permitted s) :
    s.returned.Nodup ∧ ∀ p, s.log.process = some p →
      (∀ (path : Str) (file : FileMeta), p.live.files[path]? = some file →
        ∀ handle ∈ file.chunks, handle < p.live.nextHandle) ∧
      (∀ handle ∈ p.live.chunks, handle < p.live.nextHandle) ∧
      (∀ handle ∈ s.ready, handle < p.live.nextHandle) ∧
      ∀ call ∈ s.waiting, call.2 < p.live.nextHandle := by
  have issued : Issued c s := reachable.invariant (fun _ => issued_initial)
    fun _ _ _ issued permitted taken => issued.next lossless permitted taken
  refine ⟨(List.nodup_append.mp issued.nodup).1, fun p up => ⟨?_, ?_, ?_, ?_⟩⟩
  · exact fun path file found handle member => issued.file_below up found member
  · exact fun handle member => issued.chunk_below up member
  · exact fun handle there => issued.below up (.inl (issued.ready handle there))
  · exact fun call waits => issued.below up (.inr (List.mem_map_of_mem waits))

/-! ## The millionth segment -/

/-- The bytes of the records `Create("/a")`, `AllocHandle(1)` and `AllocHandle(2)`. -/
def sampleHandle : Codec where
  crc := Chunkserver.Disk.crc32
  record record :=
    if record = .create ['/', 'a'] then some [0x0a, 0x04, 0x0a, 0x02, 0x2f, 0x61]
    else if record = .allocHandle 1 then some [0x22, 0x02, 0x08, 0x01]
    else if record = .allocHandle 2 then some [0x22, 0x02, 0x08, 0x02]
    else none
  parseRecord payload :=
    if payload = [0x0a, 0x04, 0x0a, 0x02, 0x2f, 0x61] then some (.create ['/', 'a'])
    else if payload = [0x22, 0x02, 0x08, 0x01] then some (.allocHandle 1)
    else if payload = [0x22, 0x02, 0x08, 0x02] then some (.allocHandle 2)
    else none
  checkpoint := sample.checkpoint
  parseCheckpoint := sample.parseCheckpoint

theorem sampleHandle_lossless : sampleHandle.Lossless where
  record record payload serialized := by
    simp only [sampleHandle] at serialized
    split at serialized
    case isTrue same =>
      cases serialized
      rw [same]
      exact ⟨by decide, rfl⟩
    case isFalse =>
      split at serialized
      case isTrue same =>
        cases serialized
        rw [same]
        exact ⟨by decide, rfl⟩
      case isFalse =>
        split at serialized
        case isTrue same =>
          cases serialized
          rw [same]
          exact ⟨by decide, rfl⟩
        case isFalse => cases serialized
  checkpoint := sample_lossless.checkpoint

/-- A call returns, the process is restarted, and another call returns. -/
def takenTwice : List Action :=
  [.log .recover, .allocHandle, .log .takeBatch, .log (.write .done), .returns (1, 1),
    .log (.crash 0 0), .log .recover, .allocHandle, .log .takeBatch, .log (.write .done),
    .returns (1, 2)]

theorem handles_fresh_twice : ∃ s, run (step sampleHandle 0) {} takenTwice = some s ∧
    s.returned = [1, 2] ∧ (s.log.process.map (·.live.nextHandle)) = some 3 ∧
    (s.returned.Nodup ∧ ∀ p, s.log.process = some p →
      (∀ (path : Str) (file : FileMeta), p.live.files[path]? = some file →
        ∀ handle ∈ file.chunks, handle < p.live.nextHandle) ∧
      (∀ handle ∈ p.live.chunks, handle < p.live.nextHandle) ∧
      (∀ handle ∈ s.ready, handle < p.live.nextHandle) ∧
      ∀ call ∈ s.waiting, call.2 < p.live.nextHandle) := by
  obtain ⟨s, ran⟩ := Option.isSome_iff_exists.mp
    (by decide +kernel : (run (step sampleHandle 0) {} takenTwice).isSome = true)
  have last : (run (step sampleHandle 0) {} takenTwice).map
      (fun s => (s.returned, s.log.process.map (·.live.nextHandle))) = some ([1, 2], some 3) := by
    decide +kernel
  simp only [ran, Option.map_some, Option.some.injEq, Prod.mk.injEq] at last
  obtain ⟨returned, next⟩ := last
  exact ⟨s, ran, returned, next,
    handles_fresh sampleHandle_lossless (reachable_run rfl (by decide +kernel) ran)⟩

/-- A record goes to the segment, and the next one is opened. -/
def rotation : List OpLog.Action :=
  [.append (.create ['/', 'a']), .takeBatch, .write .done, .checkSize, .openSegment]

/-- No checkpoint, an empty segment in use, and no handle in the segments that are listed. -/
structure Bare (k : Nat) (s : OpLog.State) : Prop where
  process : ∃ live : MasterState, live.nextHandle = 1 ∧
    s.process = some { live, segment := k, size := 0, synced := 0 }
  checkpoints : s.disk.checkpoints = ∅
  empty : s.disk.segments[k]? = some []
  within : ∀ segment ∈ s.disk.segments, segment ≤ k
  creates : ∀ segment, ∀ record ∈ s.disk.records sampleHandle segment, record = .create ['/', 'a']

def Empty (s : MasterState) : Prop :=
  s.nextHandle = 1 ∧ ∀ (path : Str) (file : FileMeta), s.files[path]? = some file → file.chunks = []

theorem empty_replay {s : MasterState} {records : List LogRecord} (empty : Empty s)
    (creates : ∀ record ∈ records, record = .create ['/', 'a']) : Empty (s.replay records) := by
  induction records generalizing s with
  | nil => exact empty
  | cons record records ih =>
      refine ih ⟨?_, fun path file found => ?_⟩ fun later member =>
        creates later (List.mem_cons_of_mem _ member)
      · rw [creates record List.mem_cons_self]
        exact empty.1
      · rw [creates record List.mem_cons_self] at found
        have found : (s.files.insertIfNew ['/', 'a'] {})[path]? = some file := found
        rw [Std.ExtTreeMap.getElem?_insertIfNew] at found
        split at found
        · cases found
          rfl
        · exact empty.2 path file found

theorem nextHandle_recovered {disk : Disk} (checkpoints : disk.listCheckpoints = [])
    (creates : ∀ segment ∈ disk.listSegments, ∀ record ∈ disk.records sampleHandle segment,
      record = .create ['/', 'a']) : (recover sampleHandle disk).state.nextHandle = 1 := by
  have first : loadState sampleHandle disk = (1, {}) := by
    rw [loadState, loadLatest, checkpoints]
    rfl
  have start : Empty {} := ⟨rfl, fun path file found => by simp at found⟩
  have empty : Empty (({} : MasterState).replay (recover sampleHandle disk).records) := by
    refine empty_replay start fun record member => ?_
    obtain ⟨segment, listed, inside⟩ := List.mem_flatMap.mp member
    exact creates segment (List.mem_filter.mp listed).1 record inside
  have state : (recover sampleHandle disk).state =
      (({} : MasterState).replay (recover sampleHandle disk).records).recomputeRefcounts := by
    unfold recover
    rw [first]
  rw [state, MasterState.recomputeRefcounts_eq fun handle positive => ?_]
  · exact empty.1
  · obtain ⟨path, file, found, member⟩ := exists_of_references_pos positive
    rw [empty.2 path file found] at member
    cases member

theorem active_top {disk : Disk} {k : Nat} (checkpoints : disk.listCheckpoints = [])
    (listed : k ∈ disk.listSegments) (positive : 1 ≤ k) (top : ∀ other ∈ disk.listSegments, other ≤ k) :
    (recover sampleHandle disk).active = k := by
  have first : loadState sampleHandle disk = (1, {}) := by
    rw [loadState, loadLatest, checkpoints]
    rfl
  refine Nat.le_antisymm (max_le ?_ ?_) (le_active listed)
  · cases last : disk.listSegments.getLast? with
    | none => exact positive
    | some other => exact top other (List.mem_of_getLast? last)
  · show (loadState sampleHandle disk).1 ≤ k
    rw [first]
    exact positive

/-- The bytes of the record `Create("/a")`. -/
def createFrame : Bytes := encodeRecord sampleHandle.crc [0x0a, 0x04, 0x0a, 0x02, 0x2f, 0x61]

def rotated (segments : Std.ExtTreeMap Nat Bytes) (k : Nat) : Std.ExtTreeMap Nat Bytes :=
  (segments.modify k (· ++ createFrame)).insertIfNew (k + 1) []

theorem run_rotation {s : OpLog.State} {live : MasterState} {k : Nat}
    (up : s.process = some { live, segment := k, size := 0, synced := 0 }) :
    run (OpLog.step sampleHandle 0) s rotation = some { s with
      disk := { s.disk with segments := rotated s.disk.segments k }
      process := some {
        live := live.apply (.create ['/', 'a'])
        nextSeq := 2
        flushedSeq := 1
        segment := k + 1
        size := ((rotated s.disk.segments k).getD (k + 1) []).length
        synced := ((rotated s.disk.segments k).getD (k + 1) []).length
        flusher := .joining (k + 1) (live.apply (.create ['/', 'a'])).toCheckpoint }
      history := s.history ++ [.create ['/', 'a']]
      written := s.written + 1
      starts := Function.update s.starts (k + 1)
        (s.history ++ [LogRecord.create ['/', 'a']]).length } := by
  obtain ⟨disk, process, history, survived, acknowledged, written, starts, fault, pruned⟩ := s
  obtain rfl : process = _ := up
  rfl

theorem getElem?_rotated {segments : Std.ExtTreeMap Nat Bytes} {k other : Nat}
    (empty : segments[k]? = some []) (fresh : k + 1 ∉ segments) :
    (rotated segments k)[other]? = if k + 1 = other then some []
      else if k = other then some createFrame else segments[other]? := by
  rw [rotated, Std.ExtTreeMap.getElem?_insertIfNew, getElem?_modify]
  by_cases same : k + 1 = other
  · subst same
    rw [if_pos ⟨Std.compare_self, fun there => fresh (Std.ExtTreeMap.mem_modify.mp there)⟩, if_pos rfl]
  · rw [if_neg same, if_neg (by simp [same])]
    split
    · subst other
      rw [empty]
      rfl
    · rfl

theorem Bare.creates_rotated {k : Nat} {s : OpLog.State} (bare : Bare k s) {disk : Disk}
    (lookup : ∀ other : Nat, disk.segments[other]? = if k + 1 = other then some []
      else if k = other then some createFrame else s.disk.segments[other]?) {segment : Nat} :
    ∀ record ∈ disk.records sampleHandle segment, record = .create ['/', 'a'] := by
  intro record member
  rw [Disk.records, Std.ExtTreeMap.getD_eq_getD_getElem?, lookup] at member
  split at member
  · cases member
  · split at member
    · have frame : (readSegment sampleHandle createFrame).records = [.create ['/', 'a']] := by
        decide +kernel
      have member : record ∈ (readSegment sampleHandle createFrame).records := member
      rw [frame] at member
      exact List.mem_singleton.mp member
    · rw [← Std.ExtTreeMap.getD_eq_getD_getElem?] at member
      exact bare.creates segment record member

theorem bare_restart {left : OpLog.State} {k : Nat} (checkpoints : left.disk.checkpoints = ∅)
    (empty : left.disk.segments[k]? = some []) (top : ∀ other ∈ left.disk.segments, other ≤ k)
    (creates : ∀ segment, ∀ record ∈ left.disk.records sampleHandle segment,
      record = .create ['/', 'a']) (positive : 1 ≤ k) (room : k < 10 ^ 6) :
    Bare k (restart sampleHandle left) := by
  have there : k ∈ left.disk.segments := by
    rw [Std.ExtTreeMap.mem_iff_isSome_getElem?, empty]
    rfl
  have listing : left.disk.listCheckpoints = [] := by
    rw [Disk.listCheckpoints, checkpoints]
    rfl
  have active : (recover sampleHandle left.disk).active = k :=
    active_top listing (mem_listSegments.mpr ⟨there, room⟩) positive fun other member =>
      top other (mem_listSegments.mp member).1
  have kept : (recover sampleHandle left.disk).segments[k]? = some [] := by
    rw [getElem?_recover, empty]
    split <;> rfl
  have opened : (restart sampleHandle left).disk.segments[k]? = some [] := by
    show ((recover sampleHandle left.disk).segments.insertIfNew
      (recover sampleHandle left.disk).active [])[k]? = _
    rw [Std.ExtTreeMap.getElem?_insertIfNew, if_neg, kept]
    rw [active]
    exact fun new => new.2 (Std.ExtTreeMap.mem_iff_isSome_getElem?.mpr (by rw [kept]; rfl))
  refine ⟨⟨(recover sampleHandle left.disk).state, ?_, ?_⟩, checkpoints, opened, ?_, ?_⟩
  · exact nextHandle_recovered listing fun segment _ => creates segment
  · have size : ((restart sampleHandle left).disk.segments.getD (recover sampleHandle left.disk).active
        []).length = 0 := by
      rw [active, Std.ExtTreeMap.getD_eq_getD_getElem?, opened]
      rfl
    unfold restart at size ⊢
    dsimp only at size ⊢
    rw [size, active]
  · intro segment member
    rcases mem_segments_restart.mp member with rfl | before
    · exact active.le
    · exact top segment before
  · intro segment record member
    rw [records_restart] at member
    exact creates segment record member

theorem getElem?_crash {s : OpLog.State} {p : Process} {other : Nat}
    (empty : s.disk.segments[p.segment]? = some []) (idle : p.flusher.batch = []) :
    (crash sampleHandle s p 0 0).disk.segments[other]? = s.disk.segments[other]? := by
  show (s.disk.segments.modify p.segment _)[other]? = _
  rw [getElem?_modify]
  split
  · subst other
    rw [empty, idle]
    exact congrArg some List.take_nil
  · rfl

theorem Bare.restarted {k : Nat} {s : OpLog.State} (bare : Bare k s)
    (room : k + 1 < 10 ^ 6) :
    ∃ left s', run (OpLog.step sampleHandle 0) s rotation = some left ∧
      run (OpLog.step sampleHandle 0) left [.crash 0 0, .recover] = some s' ∧ Bare (k + 1) s' := by
  obtain ⟨live, next, up⟩ := bare.process
  have fresh : k + 1 ∉ s.disk.segments := fun there => Nat.not_succ_le_self k (bare.within _ there)
  refine ⟨_, _, run_rotation up, rfl, ?_⟩
  have lookup : ∀ other, (rotated s.disk.segments k)[other]? = if k + 1 = other then some []
      else if k = other then some createFrame else s.disk.segments[other]? :=
    fun other => getElem?_rotated bare.empty fresh
  have opened : (rotated s.disk.segments k)[k + 1]? = some [] := by
    rw [lookup, if_pos rfl]
  refine bare_restart bare.checkpoints ?_ ?_ ?_ (Nat.le_add_left 1 k) room
  · exact (getElem?_crash opened rfl).trans opened
  · intro other there
    have crashed := (Std.ExtTreeMap.mem_iff_isSome_getElem?.mp there)
    rw [getElem?_crash opened rfl] at crashed
    have found : (rotated s.disk.segments k)[other]?.isSome = true := crashed
    rw [lookup] at found
    split at found
    · omega
    · split at found
      · omega
      · exact Nat.le_succ_of_le
          (bare.within other (Std.ExtTreeMap.mem_iff_isSome_getElem?.mpr found))
  · exact fun segment => bare.creates_rotated fun other =>
      (getElem?_crash opened rfl).trans (lookup other)

def Succeeds (s : State) : Action → Prop
  | .allocHandle => ∀ p, s.log.process = some p → p.live.nextHandle < 2 ^ 64 - 1
  | .log (.write outcome) => outcome = .done
  | _ => True

theorem run_log {c : Codec} {threshold : Nat} {s s' : OpLog.State} {actions : List OpLog.Action}
    (quiet : ∀ action ∈ actions, apart {} action = true)
    (ran : run (OpLog.step c threshold) s actions = some s') :
    run (step c threshold) { log := s } (actions.map .log) = some { log := s' } := by
  induction actions generalizing s with
  | nil =>
      cases ran
      rfl
  | cons action rest ih =>
      obtain ⟨middle, taken, later⟩ := Option.bind_eq_some_iff.mp ran
      have one : step c threshold { log := s } (.log action) = some { log := middle } := by
        show other c threshold { log := s } action = _
        have quiet : apart { log := s } action = true := by
          have := quiet action List.mem_cons_self
          cases action <;> exact this
        rw [AllocHandle.other, if_pos quiet, taken, Option.map_some, ite_self]
      rw [List.map_cons, run, one, Option.bind_some]
      exact ih (fun action member => quiet action (List.mem_cons_of_mem _ member)) later

theorem succeeds_opening {s : State} {action : Action}
    (member : action ∈ (rotation ++ [OpLog.Action.startWriter]).map Action.log) : Succeeds s action := by
  simp only [rotation, List.cons_append, List.nil_append, List.map_cons, List.map_nil,
    List.mem_cons, List.not_mem_nil, or_false] at member
  rcases member with rfl | rfl | rfl | rfl | rfl | rfl <;> trivial

theorem bare_first : Bare 1 (restart sampleHandle {}) := by
  have active : (recover sampleHandle {}).active = 1 := by decide +kernel
  have size : ((restart sampleHandle {}).disk.segments.getD (recover sampleHandle {}).active
      []).length = 0 := by decide +kernel
  have none : ∀ segment, ({} : Disk).records sampleHandle segment = [] := fun segment => rfl
  refine ⟨⟨(recover sampleHandle {}).state, ?_, ?_⟩, rfl, ?_, ?_, ?_⟩
  · exact nextHandle_recovered rfl fun segment listed => by cases listed
  · unfold restart at size ⊢
    dsimp only at size ⊢
    rw [size, active]
  · decide +kernel
  · intro segment there
    rcases mem_segments_restart.mp there with rfl | before
    · exact active.le
    · exact absurd before Std.ExtTreeMap.not_mem_empty
  · intro segment record member
    rw [records_restart] at member
    have member : record ∈ ({} : Disk).records sampleHandle segment := member
    rw [none] at member
    cases member

theorem bare_reachable {k : Nat} (positive : 1 ≤ k) (room : k < 10 ^ 6) : ∃ s : OpLog.State,
    Reachable (step sampleHandle 0) Initial Succeeds { log := s } ∧ Bare k s := by
  induction k, positive using Nat.le_induction with
  | base =>
      have ran : run (OpLog.step sampleHandle 0) {} [.recover] = some (restart sampleHandle {}) := rfl
      have start : Reachable (step sampleHandle 0) Initial Succeeds {} := .init rfl
      refine ⟨restart sampleHandle {}, start.run (meets_of_forall fun s action member => ?_)
        (run_log (by decide) ran), bare_first⟩
      rw [List.mem_singleton.mp member]
      trivial
  | succ k positive ih =>
      obtain ⟨s, reachable, bare⟩ := ih (Nat.lt_of_succ_lt room)
      obtain ⟨left, s', turned, again, next⟩ := bare.restarted room
      refine ⟨s', ?_, next⟩
      refine (reachable.run (meets_of_forall fun s action member => ?_)
        (run_log (by decide) turned)).run (meets_of_forall fun s action member => ?_)
        (run_log (by decide) again)
      · refine succeeds_opening ?_
        rw [List.map_append]
        exact List.mem_append_left _ member
      · simp only [List.map_cons, List.map_nil, List.mem_cons, List.not_mem_nil, or_false] at member
        rcases member with rfl | rfl <;> trivial

def taking (seq : Nat) : List Action :=
  [.allocHandle, .log .takeBatch, .log (.write .done), .returns (seq, 1)]

theorem run_taking {s : State} {live : MasterState} {k n size synced : Nat} {writer : Option Writer}
    (next : live.nextHandle = 1) (first : n = 0 ∨ n = 1) (waiting : s.waiting = [])
    (up : s.log.process = some
      { live, segment := k, nextSeq := n + 1, flushedSeq := n, size, synced, writer }) :
    ∃ s' p', run (step sampleHandle 0) s (taking (n + 1)) = some s' ∧
      Meets (step sampleHandle 0) Succeeds s (taking (n + 1)) ∧
      s'.returned = s.returned ++ [1] ∧ s'.log.process = some p' ∧ p'.segment = k ∧
      s'.log.disk.checkpoints = s.log.disk.checkpoints ∧
      ∀ other : Nat, k ≠ other → s'.log.disk.segments[other]? = s.log.disk.segments[other]? := by
  obtain ⟨files, chunks, nextHandle⟩ := live
  obtain rfl : nextHandle = 1 := next
  obtain ⟨⟨disk, process, history, survived, acknowledged, written, starts, fault, pruned⟩, waits,
    ready, returned⟩ := s
  obtain rfl : process = _ := up
  obtain rfl : waits = [] := waiting
  have meets : ∀ seq : Nat, Meets (step sampleHandle 0) Succeeds
      ⟨⟨disk, some ⟨⟨files, chunks, 1⟩, [], n + 1, n, k, false, size, synced, .waiting, writer⟩,
        history, survived, acknowledged, written, starts, fault, pruned⟩, [], ready, returned⟩
      (taking seq) := by
    intro seq
    refine ⟨fun p up => ?_, fun _ _ => ⟨trivial, fun _ _ => ⟨rfl, fun _ _ => ⟨trivial, fun _ _ =>
      trivial⟩⟩⟩⟩
    cases up
    show 1 < 2 ^ 64 - 1
    decide
  rcases first with rfl | rfl
  · refine ⟨_, _, rfl, meets _, rfl, rfl, rfl, rfl, fun other different => ?_⟩
    show (disk.segments.modify k _)[other]? = _
    rw [getElem?_modify, if_neg different]
  · refine ⟨_, _, rfl, meets _, rfl, rfl, rfl, rfl, fun other different => ?_⟩
    show (disk.segments.modify k _)[other]? = _
    rw [getElem?_modify, if_neg different]

theorem Bare.opened {k : Nat} {s : OpLog.State} (bare : Bare k s) :
    ∃ (left : OpLog.State) (live : MasterState) (size synced : Nat) (writer : Option Writer),
      run (OpLog.step sampleHandle 0) s (rotation ++ [.startWriter]) = some left ∧
      left.process = some
        { live, segment := k + 1, nextSeq := 2, flushedSeq := 1, size, synced, writer } ∧
      live.nextHandle = 1 ∧ left.disk.checkpoints = ∅ ∧
      ∀ other : Nat, left.disk.segments[other]? = if k + 1 = other then some []
        else if k = other then some createFrame else s.disk.segments[other]? := by
  obtain ⟨⟨live, next, up⟩, checkpoints, empty, within, creates⟩ := bare
  have fresh : k + 1 ∉ s.disk.segments := fun there => Nat.not_succ_le_self k (within _ there)
  obtain ⟨⟨segments, checks, temporaries⟩, process, history, survived, acknowledged, written, starts,
    fault, pruned⟩ := s
  obtain rfl : process = _ := up
  exact ⟨_, live.apply (.create ['/', 'a']), _, _, _, rfl, rfl, next, checkpoints,
    fun other => getElem?_rotated empty fresh⟩

theorem run_restarted {c : Codec} {threshold : Nat} {s : State} {p : Process}
    (up : s.log.process = some p) :
    run (step c threshold) s [.log (.crash 0 0), .log .recover] =
      some { log := restart c (crash c s.log p 0 0), returned := s.returned } := by
  obtain ⟨⟨disk, process, history, survived, acknowledged, written, starts, fault, pruned⟩, waiting,
    ready, returned⟩ := s
  obtain rfl : process = _ := up
  rfl

/-- The millionth segment is not found again, so the handle that was logged there is handed out
again. -/
theorem handles_reused : ¬ ∀ (c : Codec) (threshold : Nat) (s : State), c.Lossless →
    Reachable (step c threshold) Initial Succeeds s → s.returned.Nodup := by
  intro always
  obtain ⟨s, reachable, bare⟩ := bare_reachable (k := 10 ^ 6 - 1) (by decide) (by decide)
  obtain ⟨left, live, size, synced, writer, ran, up, next, checkpoints, lookup⟩ := bare.opened
  have opened : Reachable (step sampleHandle 0) Initial Succeeds { log := left } :=
    reachable.run (meets_of_forall fun s action member => succeeds_opening member)
      (run_log (by decide) ran)
  obtain ⟨drawn, p, draws, meets, first, running, segment, noCheckpoints, others⟩ :=
    run_taking (s := { log := left }) next (.inr rfl) rfl up
  have drew := opened.run meets draws
  have again := drew.run (meets_of_forall fun s action member => by
    rcases List.mem_cons.mp member with rfl | last
    · trivial
    · rw [List.mem_singleton.mp last]
      trivial) (run_restarted running)
  -- the listing of the segments ends before the millionth
  have listing : (crash sampleHandle drawn.log p 0 0).disk.listCheckpoints = [] := by
    rw [Disk.listCheckpoints, show (crash sampleHandle drawn.log p 0 0).disk.checkpoints = ∅ from
      noCheckpoints.trans checkpoints]
    rfl
  have same : ∀ other ∈ (crash sampleHandle drawn.log p 0 0).disk.listSegments,
      (crash sampleHandle drawn.log p 0 0).disk.records sampleHandle other =
        left.disk.records sampleHandle other := by
    intro other listed
    have small := (mem_listSegments.mp listed).2
    have kept : (crash sampleHandle drawn.log p 0 0).disk.segments[other]? =
        left.disk.segments[other]? := by
      show (drawn.log.disk.segments.modify p.segment _)[other]? = _
      rw [getElem?_modify, if_neg (by omega)]
      exact others other (by omega)
    rw [Disk.records, Disk.records, Std.ExtTreeMap.getD_eq_getD_getElem?, kept,
      Std.ExtTreeMap.getD_eq_getD_getElem?]
  have forgotten := nextHandle_recovered listing fun other listed record member =>
    bare.creates_rotated lookup record (by rw [← same other listed]; exact member)
  obtain ⟨twice, -, draws', meets', second, -⟩ := run_taking
    (s := { log := restart sampleHandle (crash sampleHandle drawn.log p 0 0), returned := drawn.returned })
    forgotten (.inl rfl) rfl rfl
  have unique := always sampleHandle 0 twice sampleHandle_lossless (again.run meets' draws')
  rw [second, first] at unique
  have unique : ([1, 1] : List Handle).Nodup := unique
  exact absurd unique (by decide)

end AllocHandle

end Gfs.Master
