import Gfs.Master.Recovery

/-!
# The previous checkpoint

`Prune` keeps two checkpoints, but removes every segment before the newest. A recovery from the
older one needs the segments from its number on; where these were kept it rebuilds the same state
(`fallback_exact`), else records are missing without an error (`fallback_fails`).
-/

namespace Gfs.Master.OpLog
open Framing Lib.Maps Lib.Transition MasterState

/-- The bytes of a checkpoint file are other ones. -/
def Disk.damage (disk : Disk) (number : Nat) (bytes : Bytes) : Disk :=
  { disk with checkpoints := disk.checkpoints.insert number bytes }

/-- At most one checkpoint stands behind the segment. -/
def Fallback (disk : Disk) (first : Nat) : Prop :=
  ∀ a ∈ disk.checkpoints, ∀ b ∈ disk.checkpoints, first < a → first < b → a = b

/-- The segments that a recovery from the last checkpoint but one replays are there. -/
def Spare (c : Codec) (disk : Disk) (history : List LogRecord) (starts : Nat → Nat)
    (active n : Nat) : Prop :=
  ∀ first, 1 ≤ first → first ≤ active → Fallback disk first →
    Tail (disk.records c) history starts active n first

/-- Two checkpoints other than those that are removed stand behind each of these. -/
def Writer.Newer (disk : Disk) : Writer → Prop
  | .pruningCheckpoints numbers => ∀ number ∈ numbers, ∃ a ∈ disk.checkpoints, ∃ b ∈ disk.checkpoints,
      a < b ∧ number < a ∧ a ∉ numbers ∧ b ∉ numbers
  | _ => True

structure Spared (c : Codec) (s : State) (p : Process) : Prop where
  spare : Spare c s.disk s.history s.starts p.segment s.written
  writer : ∀ writer, p.writer = some writer → writer.Newer s.disk

/-- The segment that `Prune` is about to remove. -/
def removing (s : State) : Option Nat :=
  match s.process.bind (·.writer) with
  | some (.pruning _ (segment :: _)) => some segment
  | _ => none

/-- Besides, a segment is removed only when two checkpoints stand behind it. -/
def Sparing (s : State) (action : Action) : Prop :=
  Clean s action ∧
    (action matches .prune → ∀ segment, removing s = some segment → ¬ Fallback s.disk segment)

instance (disk : Disk) (first : Nat) : Decidable (Fallback disk first) :=
  decidable_of_iff (∀ a ∈ disk.checkpoints.keys, ∀ b ∈ disk.checkpoints.keys,
    first < a → first < b → a = b) (by simp only [Fallback, Std.ExtTreeMap.mem_keys])

instance (s : State) (action : Action) : Decidable (Sparing s action) :=
  have : Decidable (∀ segment, removing s = some segment → ¬ Fallback s.disk segment) :=
    decidable_of_iff ((removing s).all (fun segment => ¬ Fallback s.disk segment) = true) (by
      cases none : removing s <;> simp)
  inferInstanceAs (Decidable (_ ∧ (_ → _)))

section
variable {c : Codec} {threshold : Nat} {s s' : State} {p p' : Process} {action : Action}
  {disk disk' : Disk} {history history' : List LogRecord} {starts : Nat → Nat}
  {active n first segment number : Nat}

theorem Fallback.fewer (fallback : Fallback disk' first)
    (kept : ∀ a ∈ disk.checkpoints, first < a → a ∈ disk'.checkpoints) : Fallback disk first :=
  fun a there b there' after after' =>
    fallback a (kept a there after) b (kept b there' after') after after'

theorem Spare.of_checkpoints (spare : Spare c disk history starts active n)
    (records : disk'.records c = disk.records c)
    (kept : ∀ a ∈ disk.checkpoints, a ∈ disk'.checkpoints) :
    Spare c disk' history starts active n := by
  intro first low high fallback
  rw [records]
  exact spare first low high (fallback.fewer fun a there _ => kept a there)

theorem Spare.longer (spare : Spare c disk history starts active n) (start : history <+: history')
    (inside : n ≤ history.length) : Spare c disk history' starts active n :=
  fun first low high fallback => (spare first low high fallback).longer start inside

theorem Spare.grown (spare : Spare c disk history starts active n) {more : List LogRecord}
    (checkpoints : disk'.checkpoints = disk.checkpoints)
    (same : ∀ k, k ≠ active → disk'.records c k = disk.records c k)
    (grown : disk'.records c active = disk.records c active ++ more)
    (next : more <+: history.drop n) : Spare c disk' history starts active (n + more.length) := by
  intro first low high fallback
  refine (spare first low high (fallback.fewer fun a there _ => ?_)).grown same grown next
  rw [checkpoints]
  exact there

theorem Spare.opened (spare : Spare c disk history starts active n)
    (checkpoints : disk'.checkpoints = disk.checkpoints)
    (same : ∀ k, k ≠ active + 1 → disk'.records c k = disk.records c k)
    (empty : disk'.records c (active + 1) = []) :
    Spare c disk' history (Function.update starts (active + 1) n) (active + 1) n := by
  intro first low high fallback
  rcases Nat.le_succ_iff.mp high with before | rfl
  · refine (spare first low before (fallback.fewer fun a there _ => ?_)).opened same empty n
    rw [checkpoints]
    exact there
  · exact tail_opened empty

theorem Spare.removed (spare : Spare c disk history starts active n)
    (behind : ¬ Fallback disk segment) (segments : disk'.segments = disk.segments.erase segment)
    (checkpoints : disk'.checkpoints = disk.checkpoints) :
    Spare c disk' history starts active n := by
  intro first low high fallback
  have fallback : Fallback disk first := fallback.fewer fun a there _ => checkpoints ▸ there
  have before : segment < first := by
    by_contra after
    refine behind fun a there b there' later later' => fallback a there b there' ?_ ?_ <;> omega
  refine (spare first low high fallback).congr fun k low' => ?_
  rw [Disk.records, Disk.records, segments, Std.ExtTreeMap.getD_eq_getD_getElem?, getElem?_erase,
    if_neg (by omega), Std.ExtTreeMap.getD_eq_getD_getElem?]

theorem Spare.dropped (spare : Spare c disk history starts active n) {a b : Nat}
    (there : a ∈ disk.checkpoints) (there' : b ∈ disk.checkpoints) (apart : a < b)
    (before : number < a) (segments : disk'.segments = disk.segments)
    (checkpoints : disk'.checkpoints = disk.checkpoints.erase number) :
    Spare c disk' history starts active n := by
  intro first low high fallback
  have records : disk'.records c = disk.records c := by
    funext k
    rw [Disk.records, Disk.records, segments]
  have kept : ∀ other ∈ disk.checkpoints, number ≠ other → other ∈ disk'.checkpoints := by
    intro other member different
    rw [checkpoints, Std.ExtTreeMap.mem_erase]
    exact ⟨fun same => different (Nat.compare_eq_eq.mp same), member⟩
  have behind : number ≤ first := by
    by_contra after
    have same := fallback a (kept a there (by omega)) b (kept b there' (by omega)) (by omega) (by omega)
    omega
  rw [records]
  exact spare first low high (fallback.fewer fun other member after => kept other member (by omega))

theorem Writer.Newer.same {writer : Writer} (newer : writer.Newer disk)
    (checkpoints : disk'.checkpoints = disk.checkpoints) : writer.Newer disk' := by
  cases writer with
  | pruningCheckpoints numbers =>
      unfold Writer.Newer
      rw [checkpoints]
      exact newer
  | _ => trivial

theorem Spared.calm (spared : Spared c s p) (disk : s'.disk = s.disk) (history : s'.history = s.history)
    (starts : s'.starts = s.starts) (written : s'.written = s.written)
    (segment : p'.segment = p.segment)
    (writer : ∀ writer, p'.writer = some writer → writer.Newer s.disk) : Spared c s' p' := by
  refine ⟨?_, ?_⟩
  · rw [disk, history, starts, written, segment]
    exact spared.spare
  · rw [disk]
    exact writer

theorem Spared.wrote (lossless : c.Lossless) (queued : Queued c s p) (sunk : Sunk c s p)
    (noFault : s.fault = none) (spared : Spared c s p) {batch : List (Nat × Bytes)} {next : Flusher}
    (writing : p.flusher.batch = batch)
    (up' : (writeBatch s p batch .done next).process = some p') :
    Spared c (writeBatch s p batch .done next) p' := by
  cases up'
  have length := queued.framed.length_eq
  rw [List.length_drop, List.length_append, writing] at length
  have segments : (writeBatch s p batch .done next).disk.segments = s.disk.segments.modify p.segment
      (fun bytes => bytes ++ (joined batch).take (joined batch).length) := by
    rw [List.take_length]
    rfl
  obtain ⟨more, -, -, same, grown, all⟩ := records_grown lossless queued sunk noFault writing segments
  obtain rfl := all le_rfl
  have count : ((s.history.drop s.written).take batch.length).length = batch.length := by
    rw [List.length_take, List.length_drop]
    omega
  have kept : (writeBatch s p batch .done next).disk.checkpoints = s.disk.checkpoints := rfl
  have spare := spared.spare.grown kept same grown (List.take_prefix _ _)
  rw [count] at spare
  exact ⟨spare, fun writer is => (spared.writer writer is).same rfl⟩

theorem Spared.turn (lossless : c.Lossless) (queued : Queued c s p) (sunk : Sunk c s p)
    (noFault : s.fault = none) (exact : Exact c s p) (spared : Spared c s p)
    (up : s.process = some p) (turn : Turn c threshold s p action s') (sparing : Sparing s action)
    (up' : s'.process = some p') : Spared c s' p' := by
  cases turn with
  | append unlocked logged serialized =>
      cases up'
      exact ⟨spared.spare.longer (List.prefix_append _ _) exact.stored.inside, spared.writer⟩
  | write turn =>
      obtain rfl : _ = Outcome.done := sparing.1
      obtain ⟨writing, rfl⟩ | ⟨writing, rfl⟩ := turn
      · exact spared.wrote lossless queued sunk noFault (congrArg Flusher.batch writing) up'
      · exact spared.wrote lossless queued sunk noFault (congrArg Flusher.batch writing) up'
  | openSegment opening created =>
      cases up'
      have fresh : p.segment + 1 ∉ s.disk.segments := fun there =>
        Nat.not_succ_le_self _ (exact.stored.within _ there)
      have created' : { s.disk with segments := _ }.segments =
          s.disk.segments.insertIfNew (p.segment + 1) [] := created
      obtain ⟨same, empty⟩ := records_opened (c := c) fresh created'
      refine ⟨?_, fun writer is => (spared.writer writer is).same rfl⟩
      rw [← queued.all_written opening]
      exact spared.spare.opened rfl same empty
  | startWriter joining free =>
      cases up'
      refine spared.calm rfl rfl rfl rfl rfl ?_
      rintro writer ⟨⟩
      trivial
  | giveUp writing =>
      cases up'
      exact spared.calm rfl rfl rfl rfl rfl fun _ none => by cases none
  | saveCheckpoint writing serialized =>
      cases up'
      refine ⟨spared.spare.of_checkpoints rfl fun a there => there, ?_⟩
      rintro writer ⟨⟩
      trivial
  | renameCheckpoint saved =>
      cases up'
      refine ⟨spared.spare.of_checkpoints rfl fun a there => Std.ExtTreeMap.mem_insert.mpr (.inr there),
        ?_⟩
      rintro writer ⟨⟩
      trivial
  | pruneSegment pruning =>
      cases up'
      have pruned := sparing.2 rfl _ (by rw [removing, up, Option.bind_some, pruning])
      refine ⟨spared.spare.removed pruned rfl rfl, ?_⟩
      rintro writer ⟨⟩
      trivial
  | listCheckpoints pruning =>
      cases up'
      refine spared.calm rfl rfl rfl rfl rfl ?_
      rintro writer ⟨⟩ number member
      obtain ⟨a, listed, b, listed', rest⟩ := newest_two (sorted_listCheckpoints _) member
      exact ⟨a, (mem_listCheckpoints.mp listed).1, b, (mem_listCheckpoints.mp listed').1, rest⟩
  | @pruneCheckpoint number rest pruning =>
      cases up'
      have newer := spared.writer _ pruning
      obtain ⟨a, there, b, there', apart, before, -, -⟩ := newer number List.mem_cons_self
      refine ⟨spared.spare.dropped there there' apart before rfl rfl, ?_⟩
      rintro writer ⟨⟩ other member
      obtain ⟨a, there, b, there', apart, before, absent, absent'⟩ :=
        newer other (List.mem_cons_of_mem _ member)
      have kept : ∀ k ∈ s.disk.checkpoints, k ∉ number :: rest →
          k ∈ s.disk.checkpoints.erase number := by
        intro k inside out
        refine Std.ExtTreeMap.mem_erase.mpr ⟨fun same => out ?_, inside⟩
        rw [← Nat.compare_eq_eq.mp same]
        exact List.mem_cons_self
      exact ⟨a, kept a there absent, b, kept b there' absent', apart, before,
        fun later => absent (List.mem_cons_of_mem _ later),
        fun later => absent' (List.mem_cons_of_mem _ later)⟩
  | endWriter pruning =>
      cases up'
      exact spared.calm rfl rfl rfl rfl rfl fun _ none => by cases none
  | released stopping =>
      obtain rfl := Option.some.inj (up.symm.trans up')
      exact spared
  | flushed flushed =>
      obtain rfl := Option.some.inj (up.symm.trans up')
      exact spared.calm rfl rfl rfl rfl rfl spared.writer
  | crash => cases up'
  | _ =>
      cases up'
      exact spared.calm rfl rfl rfl rfl rfl spared.writer

/-! ## Without the newest checkpoint -/

/-- As `Safe`, from either of the last two checkpoints. -/
def Doubly (c : Codec) (s : State) : Prop :=
  ∃ active n, Logs s.history ∧ Stored c s.disk s.history s.starts active n ∧
    Spare c s.disk s.history s.starts active n

theorem Spared.crashed (lossless : c.Lossless) (queued : Queued c s p) (sunk : Sunk c s p)
    (noFault : s.fault = none) (exact : Exact c s p) (spared : Spared c s p) (up : s.process = some p)
    (turn : Turn c threshold s p action s') (down : s'.process = none) : Doubly c s' := by
  cases turn with
  | @crash kept keptTemporary =>
      obtain ⟨k, segments⟩ := crash_segments (c := c) sunk noFault kept keptTemporary
      obtain ⟨more, within, keys, same, grown, -⟩ := records_grown lossless queued sunk noFault
        rfl segments
      have checkpoints : (crash c s p kept keptTemporary).disk.checkpoints = s.disk.checkpoints := rfl
      have next := within.trans (List.take_prefix _ _)
      exact ⟨p.segment, s.written + more.length, exact.logs,
        exact.stored.grown keys checkpoints same grown next,
        spared.spare.grown checkpoints same grown next⟩
  | released stopping => rw [up] at down; cases down
  | flushed flushed => rw [up] at down; cases down
  | @write outcome batch next turn => cases outcome <;> cases down
  | _ => cases down

theorem Spared.restarted (doubly : Doubly c s) :
    ∃ p, (restart c s).process = some p ∧ Spared c (restart c s) p := by
  obtain ⟨active, n, -, stored, spare⟩ := doubly
  obtain ⟨history, starts, -⟩ := stored.restarted
  have length : (s.history.take n).length = n := by
    rw [List.length_take, Nat.min_eq_left stored.inside]
  have written : (restart c s).written = n := by
    show (restart c s).history.length = n
    rw [history, length]
  have same : ∀ k ≤ n, (s.history.take n).take k = s.history.take k := by
    intro k small
    rw [List.take_take, Nat.min_eq_left small]
  refine ⟨_, rfl, ?_, fun writer none => by cases none⟩
  rw [history, starts, written]
  show Spare c _ _ _ (recover c s.disk).active n
  rw [stored.active_eq]
  intro first low high fallback
  have tail := spare first low high (fallback.fewer fun a there _ => there)
  refine ⟨tail.below, tail.start, ?_⟩
  rw [same n le_rfl, same _ tail.start, recordsFrom_congr fun k _ _ => records_restart k]
  exact tail.same

structure Guarded (c : Codec) (s : State) : Prop where
  sound : Sound c s
  up : ∀ p, s.process = some p → Spared c s p
  down : s.process = none → Doubly c s

theorem guarded_initial (initial : Initial s) : Guarded c s := by
  refine ⟨sound_initial initial, fun p up => ?_, fun _ => ?_⟩
  · rw [initial] at up
    cases up
  · subst initial
    refine ⟨1, 0, fun before record within => ?_, stored_empty, fun first low high _ => ?_⟩
    · have := within.length_le
      simp at this
    · exact stored_empty.tail first low high fun number there =>
        absurd there Std.ExtTreeMap.not_mem_empty

theorem Guarded.next (lossless : c.Lossless) (guarded : Guarded c s) (sparing : Sparing s action)
    (taken : step c threshold s action = some s') : Guarded c s' := by
  have sound := guarded.sound.next lossless sparing.1 taken
  cases here : s.process with
  | none =>
      obtain ⟨p, up, spared⟩ := Spared.restarted (guarded.down here)
      rw [step_down here taken] at sound ⊢
      refine ⟨sound, fun p' up' => ?_, fun down => ?_⟩
      · obtain rfl := Option.some.inj (up.symm.trans up')
        exact spared
      · rw [up] at down
        cases down
  | some p =>
      obtain ⟨queued, sunk⟩ := guarded.sound.logged.up p here
      have exact := guarded.sound.up p here
      have spared := guarded.up p here
      have turn := step_turn here taken
      exact ⟨sound,
        fun p' up' => spared.turn lossless queued sunk guarded.sound.noFault exact here turn sparing up',
        fun down => spared.crashed lossless queued sunk guarded.sound.noFault exact here turn down⟩

theorem Stored.spared (stored : Stored c disk history starts active n)
    (spare : Spare c disk history starts active n) {newest : Nat} :
    Stored c { disk with checkpoints := disk.checkpoints.erase newest } history starts active n := by
  refine ⟨stored.positive, stored.listed, stored.within, stored.last, stored.inside, stored.origin,
    fun first low high above => ?_, fun number bytes found => ?_⟩
  · refine spare first low high fun a there b there' after after' => ?_
    have last : ∀ other ∈ disk.checkpoints, first < other → other = newest := by
      intro other member later
      by_contra different
      have le := above other (Std.ExtTreeMap.mem_erase.mpr
        ⟨fun same => different (Nat.compare_eq_eq.mp same).symm, member⟩)
      omega
    rw [last a there after, last b there' after']
  · have found : (disk.checkpoints.erase newest)[number]? = some bytes := found
    rw [getElem?_erase] at found
    split at found
    · cases found
    · exact stored.checkpoints number bytes found

theorem findSome?_same {α β : Type*} {f g : α → Option β} {xs : List α} (same : ∀ x ∈ xs, f x = g x) :
    xs.findSome? f = xs.findSome? g := by
  induction xs with
  | nil => rfl
  | cons x xs ih =>
      rw [List.findSome?_cons, List.findSome?_cons, same x List.mem_cons_self,
        ih fun y member => same y (List.mem_cons_of_mem _ member)]

/-- A newest checkpoint that cannot be read is passed over. -/
theorem recover_damage {newest : Nat} {bytes : Bytes}
    (last : disk.listCheckpoints.getLast? = some newest) (damaged : readCheckpoint c bytes = none) :
    (recover c (disk.damage newest bytes)).state =
      (recover c { disk with checkpoints := disk.checkpoints.erase newest }).state := by
  obtain ⟨before, split⟩ := List.getLast?_eq_some_iff.mp last
  have sorted := sorted_listCheckpoints disk
  have listed : newest ∈ disk.listCheckpoints := List.mem_of_getLast? last
  rw [split] at sorted
  have smaller : ∀ k ∈ before, k < newest := fun k member =>
    (List.pairwise_append.mp sorted).2.2 k member newest (List.mem_singleton_self _)
  have same : (disk.damage newest bytes).listCheckpoints = before ++ [newest] := by
    rw [← split]
    refine (sorted_listCheckpoints _).eq_of_mem_iff (sorted_listCheckpoints _) fun k => ?_
    rw [mem_listCheckpoints, mem_listCheckpoints, Disk.damage, Std.ExtTreeMap.mem_insert,
      Nat.compare_eq_eq]
    refine and_congr_left fun small => ⟨fun there => ?_, .inr⟩
    rcases there with rfl | there
    · exact (mem_listCheckpoints.mp listed).1
    · exact there
  have fewer : ({ disk with checkpoints := disk.checkpoints.erase newest } : Disk).listCheckpoints =
      before := by
    refine (sorted_listCheckpoints _).eq_of_mem_iff (List.pairwise_append.mp sorted).1 fun k => ?_
    have inside : k ∈ disk.listCheckpoints ↔ k ∈ before ∨ k = newest := by
      rw [split, List.mem_append, List.mem_singleton]
    rw [mem_listCheckpoints] at inside ⊢
    rw [Std.ExtTreeMap.mem_erase, ne_eq, Nat.compare_eq_eq]
    constructor
    · rintro ⟨⟨other, there⟩, small⟩
      exact (inside.mp ⟨there, small⟩).resolve_right fun is => other is.symm
    · intro member
      obtain ⟨there, small⟩ := inside.mpr (.inl member)
      exact ⟨⟨(smaller k member).ne', there⟩, small⟩
  have latest : loadLatest c (disk.damage newest bytes) =
      loadLatest c { disk with checkpoints := disk.checkpoints.erase newest } := by
    rw [loadLatest, loadLatest, same, fewer, List.reverse_append, List.reverse_singleton,
      List.singleton_append, List.findSome?_cons]
    have here : (disk.damage newest bytes).checkpoints.getD newest [] = bytes :=
      Std.ExtTreeMap.getD_insert_self
    rw [here, damaged, Option.map_none]
    refine findSome?_same fun k member => ?_
    have other := (smaller k (List.mem_reverse.mp member)).ne'
    rw [Disk.damage, Std.ExtTreeMap.getD_eq_getD_getElem?, getElem?_insert, if_neg other,
      Std.ExtTreeMap.getD_eq_getD_getElem?, getElem?_erase, if_neg other]
  have state : loadState c (disk.damage newest bytes) =
      loadState c { disk with checkpoints := disk.checkpoints.erase newest } := by
    rw [loadState, loadState, latest]
  unfold recover
  rw [state]
  rfl

end

/-- Where `Prune` spares what the older checkpoint needs, a recovery from it gives the same state. -/
theorem fallback_exact {c : Codec} {threshold : Nat} {s : State} (lossless : c.Lossless)
    (reachable : Reachable (step c threshold) Initial Sparing s) (down : s.process = none)
    {newest : Nat} (last : s.disk.listCheckpoints.getLast? = some newest) {bytes : Bytes}
    (damaged : readCheckpoint c bytes = none) :
    (recover c (s.disk.damage newest bytes)).state = (recover c s.disk).state := by
  have guarded : Guarded c s := reachable.invariant (fun _ => guarded_initial)
    fun _ _ _ guarded sparing taken => guarded.next lossless sparing taken
  obtain ⟨active, n, -, stored, spare⟩ := guarded.down down
  rw [recover_damage last damaged, (stored.spared spare).recovered.2, stored.recovered.2]

/-- The first segment is rotated, and `Prune` has not begun. -/
def unpruned : List Action :=
  [.recover, .append (.create ['/', 'a']), .takeBatch, .write .done, .checkSize, .openSegment,
    .startWriter, .saveCheckpoint, .renameCheckpoint, .crash 0 0]

/-- `Prune` has removed the first segment. -/
def pruned : List Action :=
  [.recover, .append (.create ['/', 'a']), .takeBatch, .write .done, .checkSize, .openSegment,
    .startWriter, .saveCheckpoint, .renameCheckpoint, .prune, .crash 0 0]

theorem fallback_unpruned : ∃ s, run (step sample 1) {} unpruned = some s ∧
    s.disk.listCheckpoints = [2] ∧
    (recover sample (s.disk.damage 2 [])).state = (recover sample s.disk).state := by
  obtain ⟨s, ran⟩ := Option.isSome_iff_exists.mp
    (by decide +kernel : (run (step sample 1) {} unpruned).isSome = true)
  have last : (run (step sample 1) {} unpruned).map (fun s =>
      (s.process.isNone, s.disk.listCheckpoints)) = some (true, [2]) := by
    decide +kernel
  simp only [ran, Option.map_some, Option.some.injEq, Prod.mk.injEq] at last
  obtain ⟨down, listing⟩ := last
  exact ⟨s, ran, listing, fallback_exact sample_lossless (reachable_run rfl (by decide +kernel) ran)
    (Option.isNone_iff_eq_none.mp down) (by rw [listing]; rfl) (by decide +kernel)⟩

/-- Only a segment is left that begins behind the file. -/
theorem fallback_fails : ¬ ∀ (c : Codec) (threshold : Nat) (s : State), c.Lossless →
    Reachable (step c threshold) Initial Clean s → s.process = none →
    ∀ newest bytes, s.disk.listCheckpoints.getLast? = some newest → readCheckpoint c bytes = none →
      (recover c (s.disk.damage newest bytes)).state = (recover c s.disk).state := by
  intro always
  obtain ⟨s, ran⟩ := Option.isSome_iff_exists.mp
    (by decide +kernel : (run (step sample 1) {} pruned).isSome = true)
  have last : (run (step sample 1) {} pruned).map (fun s =>
      (s.process.isNone, s.disk.listCheckpoints,
        (recover sample (s.disk.damage 2 [])).state.files.toList.length,
        (recover sample s.disk).state.files.toList.length)) = some (true, [2], 0, 1) := by
    decide +kernel
  simp only [ran, Option.map_some, Option.some.injEq, Prod.mk.injEq] at last
  obtain ⟨down, listing, lost, whole⟩ := last
  have same := always sample 1 s sample_lossless (reachable_run rfl (by decide +kernel) ran)
    (Option.isNone_iff_eq_none.mp down) 2 [] (by rw [listing]; rfl) (by decide +kernel)
  rw [same, whole] at lost
  cases lost

end Gfs.Master.OpLog
