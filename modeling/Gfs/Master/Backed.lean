import Gfs.Master.Batches
import Gfs.Master.References
import Mathlib.Data.List.Induction

/-!
# Chunks of files over a log

`GcPass` logs that it drops a chunk only when no file has it, so in what replay makes of a log every
chunk of a file is in the table (`Backed`), and counting the references again adds none.
-/

namespace Gfs.Master

namespace Namespace
variable {files : Namespace} {source target path : Str} {file : FileMeta}

theorem getElem?_of_subtree {skipHidden : Bool}
    (member : (path, file) ∈ files.subtree source skipHidden) : files[path]? = some file := by
  unfold subtree at member
  rcases List.mem_append.mp member with self | below
  · split at self
    · split at self
      · obtain ⟨rfl, rfl⟩ := Prod.mk.inj (List.mem_singleton.mp self)
        assumption
      · cases self
    · cases self
  · exact (mem_withPrefix.mp (List.mem_filter.mp below).1).1

theorem exists_of_renameSubtree (found : (files.renameSubtree source target)[path]? = some file) :
    ∃ path' : Str, files[path']? = some file := by
  have kept : ∀ (keys : List Str) (left : Namespace), (keys.foldl (fun left key => left.erase key)
      left)[path]? = some file → left[path]? = some file := by
    intro keys left there
    obtain ⟨gone, same⟩ := Lib.Maps.getElem?_foldl_erase keys left path
    by_cases member : path ∈ keys
    · rw [gone member] at there
      cases there
    · rwa [same member] at there
  have moved : ∀ (entries : List (Str × FileMeta)) (left : Namespace),
      (left.insertMany entries)[path]? = some file →
        left[path]? = some file ∨ (path, file) ∈ entries := by
    intro entries
    induction entries with
    | nil => exact fun left there => .inl there
    | cons entry rest ih =>
        intro left there
        rw [Std.ExtTreeMap.insertMany_cons] at there
        rcases ih _ there with before | later
        · rw [Lib.Maps.getElem?_insert] at before
          split at before
          · subst path
            cases before
            exact .inr List.mem_cons_self
          · exact .inl before
        · exact .inr (List.mem_cons_of_mem _ later)
  rcases moved _ _ found with before | member
  · exact ⟨path, kept _ _ before⟩
  · obtain ⟨⟨path', file'⟩, inSubtree, same⟩ := List.mem_map.mp member
    obtain ⟨-, rfl⟩ := Prod.mk.inj same
    exact ⟨path', getElem?_of_subtree inSubtree⟩

end Namespace

namespace MasterState

/-! ## Chunks of files -/

def Backed (s : MasterState) : Prop :=
  ∀ (path : Str) (file : FileMeta), s.files[path]? = some file → ∀ handle ∈ file.chunks,
    handle ∈ s.chunks

section
variable {s t : MasterState} {handle : Handle} {path : Str} {index : Nat}

theorem backed_empty : Backed {} := by
  intro path file found
  simp at found

theorem Backed.next (backed : Backed s)
    (files : ∀ (path : Str) (file : FileMeta), t.files[path]? = some file →
      (∃ path' : Str, s.files[path']? = some file) ∨ ∀ handle ∈ file.chunks, handle ∈ t.chunks)
    (chunks : ∀ handle ∈ s.chunks, handle ∈ t.chunks) : Backed t := by
  intro path file found handle member
  rcases files path file found with ⟨path', before⟩ | all
  · exact chunks handle (backed path' file before handle member)
  · exact all handle member

theorem mem_foldl_modify {handles : List Handle} {f : ChunkMeta → ChunkMeta} {chunks : ChunkTable} :
    handle ∈ handles.foldl (fun chunks handle => chunks.modify handle f) chunks ↔
      handle ∈ chunks := by
  induction handles generalizing chunks with
  | nil => exact Iff.rfl
  | cons first rest ih => exact ih.trans Std.ExtTreeMap.mem_modify

theorem mem_refer {other : Handle} :
    other ∈ (s.refer handle).chunks ↔ other = handle ∨ other ∈ s.chunks := by
  simp only [refer, applyAllocHandle, ChunkTable.create, Std.ExtTreeMap.mem_modify,
    Std.ExtTreeMap.mem_insertIfNew, Nat.compare_eq_eq]
  rw [eq_comm]

theorem Backed.refer (backed : Backed s) {file file' : FileMeta} {chunks : ChunkTable}
    (found : s.files[path]? = some file) (kept : ∀ handle ∈ s.chunks, handle ∈ chunks)
    (among : ∀ other ∈ file'.chunks, other = handle ∨ other ∈ file.chunks) :
    Backed ({ s with files := s.files.insert path file', chunks }.refer handle) := by
  refine backed.next (fun path' file'' found' => ?_) fun other member =>
    mem_refer.mpr (.inr (kept other member))
  have found' : (s.files.insert path file')[path']? = some file'' := found'
  rw [Lib.Maps.getElem?_insert] at found'
  split at found'
  · cases found'
    refine .inr fun other member => mem_refer.mpr ?_
    exact (among other member).imp_right fun old => kept _ (backed path file found other old)
  · exact .inl ⟨path', found'⟩

theorem Backed.applyReplaceChunk (backed : Backed s) :
    Backed (s.applyReplaceChunk path index handle) := by
  unfold MasterState.applyReplaceChunk
  split
  · exact backed
  · split
    · exact backed
    · split
      · exact backed
      · refine backed.refer ‹_› (fun other member => Std.ExtTreeMap.mem_modify.mpr member) ?_
        exact fun other member => (List.mem_or_eq_of_mem_set member).symm

theorem Backed.applyAddChunk (backed : Backed s) :
    Backed (s.applyAddChunk path index handle) := by
  unfold MasterState.applyAddChunk
  split
  · exact backed
  · split
    · split
      · exact backed
      · exact backed.applyReplaceChunk
    · split
      · exact backed
      · refine backed.refer ‹_› (fun other member => member) fun other member => ?_
        simpa [or_comm] using member

theorem Backed.applySnapshot (backed : Backed s) {source target : Str} :
    Backed (s.applySnapshot source target) := by
  have entries : ∀ entry ∈ s.files.subtree source true, ∀ handle ∈ entry.2.chunks,
      handle ∈ s.chunks :=
    fun entry member => backed entry.1 entry.2 (Namespace.getElem?_of_subtree member)
  unfold MasterState.applySnapshot
  generalize s.files.subtree source true = listed at entries
  induction listed generalizing s with
  | nil => exact backed
  | cons entry rest ih =>
      have grown : ∀ handle, handle ∈ (copyFile source target s entry).chunks ↔
          handle ∈ s.chunks := by
        intro handle
        unfold copyFile
        dsimp only
        split
        · exact Iff.rfl
        · exact mem_foldl_modify
      refine ih ?_ fun later member handle inFile => (grown handle).mpr
        (entries later (List.mem_cons_of_mem _ member) handle inFile)
      refine backed.next (fun path file found => ?_) fun handle member => (grown handle).mpr member
      unfold copyFile at found
      dsimp only at found
      split at found
      · exact .inl ⟨path, found⟩
      · rw [Std.ExtTreeMap.getElem?_insertIfNew] at found
        split at found
        · cases found
          exact .inr fun handle member => (grown handle).mpr
            (entries entry List.mem_cons_self handle member)
        · exact .inl ⟨path, found⟩

theorem Backed.apply (backed : Backed s) {record : LogRecord}
    (loggable : OpLog.loggable s record = true) : Backed (s.apply record) := by
  cases record with
  | create path =>
      refine backed.next (fun path' file found => ?_) fun handle member => member
      have found : (s.files.insertIfNew path {})[path']? = some file := found
      rw [Std.ExtTreeMap.getElem?_insertIfNew] at found
      split at found
      · cases found
        exact .inr fun handle member => absurd member List.not_mem_nil
      · exact .inl ⟨path', found⟩
  | rename source target =>
      show Backed (s.applyRename source target)
      unfold applyRename
      split
      · exact backed
      · exact backed.next (fun path file found => .inl (Namespace.exists_of_renameSubtree found))
          fun handle member => member
  | remove path =>
      show Backed (s.applyRemove path)
      unfold applyRemove
      split
      · exact backed
      · refine backed.next (fun path' file found => .inl ⟨path', ?_⟩) fun handle member =>
          mem_foldl_modify.mpr member
        have found : (s.files.erase path)[path']? = some file := found
        rw [Lib.Maps.getElem?_erase] at found
        split at found
        · cases found
        · exact found
  | allocHandle handle => exact backed
  | addChunk path index handle => exact backed.applyAddChunk
  | replaceChunk path index handle => exact backed.applyReplaceChunk
  | bumpVersion handle version =>
      exact backed.next (fun path file found => .inl ⟨path, found⟩) fun handle member =>
        Std.ExtTreeMap.mem_modify.mpr member
  | snapshot source target => exact backed.applySnapshot
  | dropChunk handle =>
      intro path file found other member
      have unused := List.all_eq_true.mp loggable (path, file)
        (Std.ExtTreeMap.mem_toList_iff_getElem?_eq_some.mpr found)
      refine Std.ExtTreeMap.mem_erase.mpr ⟨fun same => ?_, backed path file found other member⟩
      obtain rfl := Nat.compare_eq_eq.mp same
      dsimp only at unused
      rw [List.contains_iff_mem.mpr member] at unused
      cases unused
  | bodyNotSet => exact backed

theorem Alike.loggable (alike : Alike s t) (record : LogRecord) :
    OpLog.loggable s record = OpLog.loggable t record := by
  cases record <;> simp [OpLog.loggable, alike.files]

theorem Plain.recompute (plain : Plain s) (backed : Backed s) :
    Plain s.recomputeRefcounts ∧ s.recomputeRefcounts.Alike s := by
  have there : ∀ handle, 0 < references s.files handle →
      handle ∈ s.chunks ∧ u64 (handle + 1) ≤ s.nextHandle := by
    intro handle positive
    obtain ⟨path, file, found, member⟩ := exists_of_references_pos positive
    have inTable := backed path file found handle member
    exact ⟨inTable, plain.above handle inTable⟩
  rw [recomputeRefcounts_eq there]
  refine ⟨⟨plain.positive, fun handle member => plain.above handle ?_, fun handle m found => ?_⟩,
    rfl, fun handle => ?_, rfl⟩
  · exact Std.ExtTreeMap.mem_map.mp member
  · have found : (recount s.chunks (references s.files))[handle]? = some m := found
    rw [getElem?_recount] at found
    obtain ⟨m', before, rfl⟩ := Option.map_eq_some_iff.mp found
    exact plain.chunks handle m' before
  · show (recount s.chunks (references s.files))[handle]?.map _ = _
    rw [getElem?_recount, Option.map_map]
    rfl

end

end MasterState

namespace OpLog
open MasterState

/-! ## Histories -/

def Logs (records : List LogRecord) : Prop :=
  ∀ (before : List LogRecord) (record : LogRecord), before ++ [record] <+: records →
    loggable (({} : MasterState).replay before) record = true

section
variable {records : List LogRecord} {record : LogRecord}

theorem Logs.before {longer : List LogRecord} (logs : Logs longer) (start : records <+: longer) :
    Logs records :=
  fun before record within => logs before record (within.trans start)

theorem Logs.append (logs : Logs records)
    (loggable : loggable (({} : MasterState).replay records) record = true) :
    Logs (records ++ [record]) := by
  intro before last within
  rcases List.prefix_concat_iff.mp within with whole | earlier
  · obtain ⟨rfl, same⟩ := List.append_inj' whole rfl
    rw [List.head_eq_of_cons_eq same]
    exact loggable
  · exact logs before last earlier

theorem replay_concat (s : MasterState) :
    s.replay (records ++ [record]) = (s.replay records).apply record := by
  rw [MasterState.replay, List.foldl_append]
  rfl

theorem Logs.backed (logs : Logs records) : (({} : MasterState).replay records).Backed := by
  induction records using List.reverseRecOn with
  | nil => exact backed_empty
  | append_singleton records record ih =>
      rw [replay_concat]
      exact (ih (logs.before (List.prefix_append _ _))).apply (logs _ _ List.prefix_rfl)

end

end OpLog

end Gfs.Master
