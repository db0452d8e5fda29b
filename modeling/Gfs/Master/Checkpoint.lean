import Gfs.Master.MasterState

/-!
# Checkpoints

A state that was replayed from the log alone has no pending chunk and no lease, and its next handle
is above its chunks. So its checkpoint loses nothing but the refcounts, which replay does not read
beyond the guard of the decrements and which are counted again at the end.
-/

namespace Gfs.Master
open Lib.Maps

namespace MasterState

def PlainChunk (m : ChunkMeta) : Prop := m.forget = { version := m.version }

structure Plain (s : MasterState) : Prop where
  positive : 1 ≤ s.nextHandle
  above : ∀ handle ∈ s.chunks, u64 (handle + 1) ≤ s.nextHandle
  chunks : ∀ (handle : Handle) m, s.chunks[handle]? = some m → PlainChunk m

section
variable {s : MasterState} {handle : Handle}

theorem plain_empty : Plain {} := by
  refine ⟨Nat.le_refl 1, ?_, ?_⟩ <;> simp

theorem Plain.modify (plain : Plain s) {f : ChunkMeta → ChunkMeta} {files : Namespace}
    (same : ∀ m, PlainChunk m → PlainChunk (f m)) :
    Plain { s with files, chunks := s.chunks.modify handle f } := by
  refine ⟨plain.positive, fun other member => plain.above other ?_, fun other m found => ?_⟩
  · exact Std.ExtTreeMap.mem_modify.mp member
  · rw [Std.ExtTreeMap.getElem?_modify] at found
    split at found
    · obtain ⟨before, there, rfl⟩ := Option.map_eq_some_iff.mp found
      exact same before (plain.chunks _ before there)
    · exact plain.chunks other m found

theorem Plain.foldl (plain : Plain s) {handles : List Handle} {files : Namespace}
    {f : ChunkMeta → ChunkMeta} (same : ∀ m, PlainChunk m → PlainChunk (f m)) :
    Plain { s with
      files, chunks := handles.foldl (fun chunks handle => chunks.modify handle f) s.chunks } := by
  induction handles generalizing s with
  | nil => exact ⟨plain.positive, plain.above, plain.chunks⟩
  | cons handle handles ih =>
      have next : Plain { s with chunks := s.chunks.modify handle f } := plain.modify same
      exact ih next

theorem Plain.applyAllocHandle (plain : Plain s) : Plain (s.applyAllocHandle handle) where
  positive := Nat.le_trans plain.positive (Nat.le_max_left _ _)
  above other member := Nat.le_trans (plain.above other member) (Nat.le_max_left _ _)
  chunks := plain.chunks

theorem Plain.refer (plain : Plain s) : Plain (s.refer handle) := by
  have created : ∀ other ∈ s.chunks.create handle 1, other = handle ∨ other ∈ s.chunks := by
    intro other member
    rcases Std.ExtTreeMap.mem_insertIfNew.mp member with same | there
    · exact .inl (Std.LawfulEqOrd.eq_of_compare same).symm
    · exact .inr there
  refine ⟨Nat.le_trans plain.positive (Nat.le_max_left _ _), fun other member => ?_,
    fun other m found => ?_⟩
  · rcases created other (Std.ExtTreeMap.mem_modify.mp member) with rfl | there
    · exact Nat.le_max_right _ _
    · exact Nat.le_trans (plain.above other there) (Nat.le_max_left _ _)
  · have before : ∀ m, (s.chunks.create handle 1)[other]? = some m → PlainChunk m := by
      intro m found
      rw [ChunkTable.create, Std.ExtTreeMap.getElem?_insertIfNew] at found
      split at found
      · cases found
        rfl
      · exact plain.chunks other m found
    rw [MasterState.refer, MasterState.applyAllocHandle] at found
    dsimp only at found
    rw [Std.ExtTreeMap.getElem?_modify] at found
    split at found
    case isFalse => exact before m found
    case isTrue same =>
      obtain rfl := Std.LawfulEqOrd.eq_of_compare same
      obtain ⟨m', there, rfl⟩ := Option.map_eq_some_iff.mp found
      have plain' := before m' there
      cases m'
      simp_all [PlainChunk, ChunkMeta.forget]

theorem Plain.files (plain : Plain s) {files : Namespace} : Plain { s with files } :=
  ⟨plain.positive, plain.above, plain.chunks⟩

theorem Plain.applyReplaceChunk (plain : Plain s) {path : Str} {index : Nat} :
    Plain (s.applyReplaceChunk path index handle) := by
  unfold MasterState.applyReplaceChunk
  split
  · exact plain
  · split
    · exact plain
    · split
      · exact plain
      · apply Plain.refer
        exact plain.modify fun m same => by cases m; simp_all [PlainChunk, ChunkMeta.forget]

theorem Plain.applyAddChunk (plain : Plain s) {path : Str} {index : Nat} :
    Plain (s.applyAddChunk path index handle) := by
  unfold MasterState.applyAddChunk
  split
  · exact plain
  · split
    · split
      · exact plain
      · exact plain.applyReplaceChunk
    · split
      · exact plain
      · apply Plain.refer
        exact plain.files

theorem Plain.applySnapshot (plain : Plain s) {source target : Str} :
    Plain (s.applySnapshot source target) := by
  unfold MasterState.applySnapshot
  generalize s.files.subtree source true = entries
  induction entries generalizing s with
  | nil => exact plain
  | cons entry entries ih =>
      refine ih ?_
      unfold MasterState.copyFile
      dsimp only
      split
      · exact plain
      · exact plain.foldl fun m same => by cases m; simp_all [PlainChunk, ChunkMeta.forget]

theorem Plain.apply (plain : Plain s) (record : LogRecord) : Plain (s.apply record) := by
  cases record with
  | create path => exact plain.files
  | rename source target =>
      show Plain (s.applyRename source target)
      unfold applyRename
      split
      · exact plain
      · exact plain.files
  | remove path =>
      show Plain (s.applyRemove path)
      unfold applyRemove
      split
      · exact plain
      · exact plain.foldl fun m same => by cases m; simp_all [PlainChunk, ChunkMeta.forget]
  | allocHandle handle => exact plain.applyAllocHandle
  | addChunk path index handle => exact plain.applyAddChunk
  | replaceChunk path index handle => exact plain.applyReplaceChunk
  | bumpVersion handle version =>
      refine plain.modify fun m same => ?_
      cases m
      simp_all [PlainChunk, ChunkMeta.forget]
  | snapshot source target => exact plain.applySnapshot
  | dropChunk handle =>
      refine ⟨plain.positive, fun other member => ?_, fun other m found => ?_⟩
      · exact plain.above other (Std.ExtTreeMap.mem_of_mem_erase member)
      · have kept : (s.chunks.erase handle)[other]? = some m := found
        rw [getElem?_erase] at kept
        split at kept
        · cases kept
        · exact plain.chunks other m kept
  | bodyNotSet => exact plain

theorem Plain.replay (plain : Plain s) (records : List LogRecord) : Plain (s.replay records) := by
  induction records generalizing s with
  | nil => exact plain
  | cons record records ih => exact ih (plain.apply record)

/-! ## Loading -/

theorem load_chunks (entries : List (Handle × Nat)) (s : MasterState)
    (above : ∀ entry ∈ entries, u64 (entry.1 + 1) ≤ s.nextHandle) :
    entries.foldl (fun (s : MasterState) (entry : Handle × Nat) =>
        { s with chunks := s.chunks.create entry.1 entry.2 }.applyAllocHandle entry.1) s =
      { s with chunks := entries.foldl (fun chunks entry => chunks.create entry.1 entry.2) s.chunks } := by
  induction entries generalizing s with
  | nil => rfl
  | cons entry entries ih =>
      have first : max s.nextHandle (u64 (entry.1 + 1)) = s.nextHandle :=
        Nat.max_eq_left (above entry List.mem_cons_self)
      have one : { s with chunks := s.chunks.create entry.1 entry.2 }.applyAllocHandle entry.1 =
          { s with chunks := s.chunks.create entry.1 entry.2 } := by
        rw [MasterState.applyAllocHandle]
        simp only [first]
      rw [List.foldl_cons, List.foldl_cons, one,
        ih { s with chunks := s.chunks.create entry.1 entry.2 }]
      exact fun later member => above later (List.mem_cons_of_mem _ member)

/-- Writing a replayed state out and reading it back loses the refcounts only. -/
theorem Plain.load_toCheckpoint (plain : Plain s) : (load s.toCheckpoint).Alike s := by
  have listed : ∀ entry ∈ s.chunks.toList, PlainChunk entry.2 := fun entry member =>
    plain.chunks entry.1 entry.2 (Std.ExtTreeMap.mem_toList_iff_getElem?_eq_some.mp member)
  have nonePending : (s.chunks.toList.filter fun entry => !entry.2.pending) = s.chunks.toList := by
    refine List.filter_eq_self.mpr fun entry member => ?_
    have pending := congrArg ChunkMeta.pending (listed entry member)
    simpa [ChunkMeta.forget] using pending
  have files : (s.files.toList.map fun entry => (entry.1, entry.2.chunks)).foldl
      (fun (files : Namespace) entry => files.insertIfNew entry.1 { chunks := entry.2 }) ∅ =
        s.files := by
    rw [List.foldl_map]
    refine Std.ExtTreeMap.ext_getElem? fun {path} => ?_
    exact (getElem?_rebuild (fun file : FileMeta => file) s.files path).trans (Option.map_id' ..)
  have chunks : ChunkTable.Alike ((s.chunks.toList.map fun entry => (entry.1, entry.2.version)).foldl
      (fun (chunks : ChunkTable) entry => chunks.create entry.1 entry.2) ∅) s.chunks := by
    intro handle
    rw [List.foldl_map]
    have rebuilt := getElem?_rebuild (fun m : ChunkMeta => ({ version := m.version } : ChunkMeta))
      s.chunks handle
    refine (congrArg _ rebuilt).trans ?_
    obtain none | ⟨m, found⟩ := Option.eq_none_or_eq_some s.chunks[handle]?
    · simp [none]
    · rw [found]
      exact congrArg some (plain.chunks handle m found).symm
  have loaded : load s.toCheckpoint = { s with
      chunks := (s.chunks.toList.map fun entry => (entry.1, entry.2.version)).foldl
        (fun (chunks : ChunkTable) entry => chunks.create entry.1 entry.2) ∅ } := by
    have next : max 1 s.nextHandle = s.nextHandle := Nat.max_eq_right plain.positive
    rw [load, toCheckpoint, nonePending]
    dsimp only
    rw [next]
    refine (load_chunks _ _ fun entry member => ?_).trans ?_
    · obtain ⟨⟨handle, m⟩, inTable, rfl⟩ := List.mem_map.mp member
      have found := Std.ExtTreeMap.mem_toList_iff_getElem?_eq_some.mp inTable
      exact plain.above handle (Std.ExtTreeMap.mem_iff_isSome_getElem?.mpr (by simp [found]))
    · dsimp only
      rw [files]
  rw [loaded]
  exact ⟨rfl, chunks, rfl⟩

end

/-- A checkpoint in the middle of the log does not change what replay makes of it. -/
theorem checkpoint_transparent (before after : List LogRecord) :
    ((load (({} : MasterState).replay before).toCheckpoint).replay after).recomputeRefcounts =
      ((({} : MasterState).replay before).replay after).recomputeRefcounts :=
  ((plain_empty.replay before).load_toCheckpoint.replay after).recomputeRefcounts

end MasterState

end Gfs.Master
