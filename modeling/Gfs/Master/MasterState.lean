import Gfs.Master.ChunkMeta
import Gfs.Master.Namespace

/-!
# `master/master_state.cc`

The state that the operation log describes: the namespace, the chunk table and the next handle. The
log and the checkpoints carry neither refcounts nor anything about leases, so two states that differ
in their refcounts only are the same to replay (`forget`).
-/

namespace Gfs.Master
open Lib.Maps

abbrev ChunkTable := Std.ExtTreeMap Handle ChunkMeta

namespace ChunkTable

/-- `Create` leaves a chunk that is there alone. -/
def create (chunks : ChunkTable) (handle version : Nat) : ChunkTable :=
  chunks.insertIfNew handle { version }

def addReference (chunks : ChunkTable) (handle : Handle) : ChunkTable :=
  chunks.modify handle fun m => { m with refcount := m.refcount + 1 }

def dropReference (chunks : ChunkTable) (handle : Handle) : ChunkTable :=
  chunks.modify handle fun m => { m with refcount := m.refcount - 1 }

end ChunkTable

inductive LogRecord
  | create (path : Str)
  | rename (source target : Str)
  | remove (path : Str)
  | allocHandle (handle : Handle)
  | addChunk (path : Str) (index : Nat) (handle : Handle)
  | replaceChunk (path : Str) (index : Nat) (handle : Handle)
  | bumpVersion (handle : Handle) (version : Nat)
  | snapshot (source target : Str)
  | dropChunk (handle : Handle)
  | bodyNotSet
deriving DecidableEq

structure Checkpoint where
  nextChunkHandle : Nat
  files : List (Str × List Handle)
  chunks : List (Handle × Nat)
deriving DecidableEq

structure MasterState where
  files : Namespace := ∅
  chunks : ChunkTable := ∅
  nextHandle : Nat := 1

namespace MasterState
open ChunkTable

def applyCreate (s : MasterState) (path : Str) : MasterState :=
  { s with files := s.files.insertIfNew path {} }

def applyRename (s : MasterState) (source target : Str) : MasterState :=
  if !s.files.contains source && !s.files.isDirectory source then s
  else { s with files := s.files.renameSubtree source target }

def applyRemove (s : MasterState) (path : Str) : MasterState :=
  match s.files[path]? with
  | none => s
  | some file =>
      { s with
        chunks := file.chunks.foldl dropReference s.chunks
        files := s.files.erase path }

def applyAllocHandle (s : MasterState) (handle : Handle) : MasterState :=
  { s with nextHandle := max s.nextHandle (u64 (handle + 1)) }

/-- The end of `ApplyAddChunk` and of `ApplyReplaceChunk`: a file now has the chunk. -/
def refer (s : MasterState) (handle : Handle) : MasterState :=
  { s with
    chunks := (s.chunks.create handle 1).modify handle fun m =>
      { m with pending := false, refcount := m.refcount + 1 } }.applyAllocHandle handle

def applyReplaceChunk (s : MasterState) (path : Str) (index : Nat) (handle : Handle) : MasterState :=
  match s.files[path]? with
  | none => s
  | some file =>
      match file.chunks[index]? with
      | none => s
      | some old =>
          if old = handle then s
          else { s with
            chunks := dropReference s.chunks old
            files := s.files.insert path { chunks := file.chunks.set index handle } }.refer handle

def applyAddChunk (s : MasterState) (path : Str) (index : Nat) (handle : Handle) : MasterState :=
  match s.files[path]? with
  | none => s
  | some file =>
      match file.chunks[index]? with
      | some there => if there = handle then s else s.applyReplaceChunk path index handle
      | none =>
          if index ≠ file.chunks.length then s
          else { s with
            files := s.files.insert path { chunks := file.chunks ++ [handle] } }.refer handle

def applyBumpVersion (s : MasterState) (handle version : Nat) : MasterState :=
  { s with chunks := s.chunks.modify handle fun m => { m with version := max m.version version } }

/-- The loop body of `ApplySnapshot`. -/
def copyFile (source target : Str) (s : MasterState) (entry : Str × FileMeta) : MasterState :=
  let copied := Namespace.rebase source target entry.1
  if s.files.contains copied then s
  else { s with
    chunks := entry.2.chunks.foldl addReference s.chunks
    files := s.files.insertIfNew copied entry.2 }

def applySnapshot (s : MasterState) (source target : Str) : MasterState :=
  (s.files.subtree source true).foldl (copyFile source target) s

def applyDropChunk (s : MasterState) (handle : Handle) : MasterState :=
  { s with chunks := s.chunks.erase handle }

def apply (s : MasterState) : LogRecord → MasterState
  | .create path => s.applyCreate path
  | .rename source target => s.applyRename source target
  | .remove path => s.applyRemove path
  | .allocHandle handle => s.applyAllocHandle handle
  | .addChunk path index handle => s.applyAddChunk path index handle
  | .replaceChunk path index handle => s.applyReplaceChunk path index handle
  | .bumpVersion handle version => s.applyBumpVersion handle version
  | .snapshot source target => s.applySnapshot source target
  | .dropChunk handle => s.applyDropChunk handle
  | .bodyNotSet => s

def replay (s : MasterState) (records : List LogRecord) : MasterState := records.foldl apply s

def toCheckpoint (s : MasterState) : Checkpoint where
  nextChunkHandle := s.nextHandle
  files := s.files.toList.map fun (path, file) => (path, file.chunks)
  chunks := (s.chunks.toList.filter fun entry => !entry.2.pending).map fun (handle, m) =>
    (handle, m.version)

def load (checkpoint : Checkpoint) : MasterState :=
  let s : MasterState :=
    { files := checkpoint.files.foldl (fun files (path, chunks) => files.insertIfNew path { chunks }) ∅
      nextHandle := max 1 checkpoint.nextChunkHandle }
  checkpoint.chunks.foldl (fun s (handle, version) =>
    { s with chunks := s.chunks.create handle version }.applyAllocHandle handle) s

/-- The loop body of `RecomputeRefcounts`. -/
def countReference (s : MasterState) (handle : Handle) : MasterState :=
  { s with chunks := (s.chunks.create handle 1).addReference handle }.applyAllocHandle handle

def zeroRefcounts (chunks : ChunkTable) : ChunkTable :=
  chunks.map fun _ m => { m with refcount := 0 }

def recomputeRefcounts (s : MasterState) : MasterState :=
  s.files.toList.foldl (fun s (_, file) => file.chunks.foldl countReference s)
    { s with chunks := zeroRefcounts s.chunks }

/-! ## Dropped chunks -/

section
variable {s : MasterState} {handles : List Handle} {handle : Handle}

theorem files_drops : (handles.foldl applyDropChunk s).files = s.files := by
  induction handles generalizing s with
  | nil => rfl
  | cons first rest ih => exact ih

theorem nextHandle_drops : (handles.foldl applyDropChunk s).nextHandle = s.nextHandle := by
  induction handles generalizing s with
  | nil => rfl
  | cons first rest ih => exact ih

theorem getElem?_drops : (handles.foldl applyDropChunk s).chunks[handle]? =
    if handle ∈ handles then none else s.chunks[handle]? := by
  induction handles generalizing s with
  | nil => simp
  | cons first rest ih =>
      have one : (s.applyDropChunk first).chunks[handle]? = _ := getElem?_erase
      rw [List.foldl_cons, ih, one]
      by_cases same : first = handle
      · simp [same]
      · simp [same, Ne.symm same]

end

/-! ## Replay without refcounts -/

end MasterState

def ChunkMeta.forget (m : ChunkMeta) : ChunkMeta := { m with refcount := 0 }

def ChunkTable.Alike (a b : ChunkTable) : Prop :=
  ∀ handle : Handle, a[handle]?.map ChunkMeta.forget = b[handle]?.map ChunkMeta.forget

namespace ChunkTable
variable {a b : ChunkTable} {handle : Handle}

theorem Alike.modify (alike : Alike a b) {f : ChunkMeta → ChunkMeta}
    (same : ∀ m m', m.forget = m'.forget → (f m).forget = (f m').forget) :
    Alike (a.modify handle f) (b.modify handle f) := by
  intro other
  rw [Std.ExtTreeMap.getElem?_modify, Std.ExtTreeMap.getElem?_modify]
  split
  · have here := alike handle
    cases foundA : a[handle]? with
    | none =>
        have foundB : b[handle]? = none := by simpa [foundA] using here.symm
        rw [foundB]
    | some m =>
        obtain ⟨m', foundB, eq⟩ := Option.map_eq_some_iff.mp (here.symm.trans (by rw [foundA]; rfl))
        rw [foundB]
        exact congrArg some (same m m' eq.symm)
  · exact alike other

theorem Alike.addReference (alike : Alike a b) : Alike (a.addReference handle) (b.addReference handle) :=
  alike.modify fun m m' same => by cases m; cases m'; simpa [ChunkMeta.forget] using same

theorem Alike.dropReference (alike : Alike a b) :
    Alike (a.dropReference handle) (b.dropReference handle) :=
  alike.modify fun m m' same => by cases m; cases m'; simpa [ChunkMeta.forget] using same

theorem Alike.create (alike : Alike a b) {version : Nat} :
    Alike (a.create handle version) (b.create handle version) := by
  intro other
  have member : handle ∈ a ↔ handle ∈ b := by
    rw [← Std.ExtTreeMap.isSome_getElem?_iff_mem, ← Std.ExtTreeMap.isSome_getElem?_iff_mem,
      ← Option.isSome_map (f := ChunkMeta.forget), alike handle, Option.isSome_map]
  simp only [ChunkTable.create, Std.ExtTreeMap.getElem?_insertIfNew, member]
  split
  · rfl
  · exact alike other

theorem Alike.erase (alike : Alike a b) : Alike (a.erase handle) (b.erase handle) := by
  intro other
  rw [Std.ExtTreeMap.getElem?_erase, Std.ExtTreeMap.getElem?_erase]
  split
  · rfl
  · exact alike other

theorem Alike.foldl {handles : List Handle} {f : ChunkTable → Handle → ChunkTable}
    (step : ∀ a b handle, Alike a b → Alike (f a handle) (f b handle)) (alike : Alike a b) :
    Alike (handles.foldl f a) (handles.foldl f b) := by
  induction handles generalizing a b with
  | nil => exact alike
  | cons handle handles ih => exact ih (step a b handle alike)

end ChunkTable

namespace MasterState

structure Alike (s t : MasterState) : Prop where
  files : s.files = t.files
  chunks : s.chunks.Alike t.chunks
  nextHandle : s.nextHandle = t.nextHandle

section
variable {s t : MasterState}

theorem Alike.applyAllocHandle (alike : Alike s t) {handle : Handle} :
    Alike (s.applyAllocHandle handle) (t.applyAllocHandle handle) :=
  ⟨alike.files, alike.chunks, by rw [MasterState.applyAllocHandle, alike.nextHandle]; rfl⟩

theorem Alike.refer (alike : Alike s t) {handle : Handle} :
    Alike (s.refer handle) (t.refer handle) := by
  have chunks : ChunkTable.Alike
      ((s.chunks.create handle 1).modify handle fun m =>
        { m with pending := false, refcount := m.refcount + 1 })
      ((t.chunks.create handle 1).modify handle fun m =>
        { m with pending := false, refcount := m.refcount + 1 }) := by
    refine alike.chunks.create.modify fun m m' same => ?_
    cases m
    cases m'
    simp_all [ChunkMeta.forget]
  unfold MasterState.refer
  apply Alike.applyAllocHandle
  exact ⟨alike.files, chunks, alike.nextHandle⟩

theorem Alike.applyReplaceChunk (alike : Alike s t) {path : Str} {index : Nat} {handle : Handle} :
    Alike (s.applyReplaceChunk path index handle) (t.applyReplaceChunk path index handle) := by
  unfold MasterState.applyReplaceChunk
  rw [alike.files]
  split
  · exact alike
  · split
    · exact alike
    · split
      · exact alike
      · apply Alike.refer
        exact ⟨rfl, alike.chunks.dropReference, alike.nextHandle⟩

theorem Alike.applyAddChunk (alike : Alike s t) {path : Str} {index : Nat} {handle : Handle} :
    Alike (s.applyAddChunk path index handle) (t.applyAddChunk path index handle) := by
  unfold MasterState.applyAddChunk
  rw [alike.files]
  split
  · exact alike
  · split
    · split
      · exact alike
      · exact alike.applyReplaceChunk
    · split
      · exact alike
      · apply Alike.refer
        exact ⟨rfl, alike.chunks, alike.nextHandle⟩

theorem Alike.copyFile (alike : Alike s t) {source target : Str} {entry : Str × FileMeta} :
    Alike (copyFile source target s entry) (copyFile source target t entry) := by
  unfold MasterState.copyFile
  rw [alike.files]
  dsimp only
  split
  · exact alike
  · exact ⟨rfl, alike.chunks.foldl fun _ _ _ same => same.addReference, alike.nextHandle⟩

theorem Alike.applySnapshot (alike : Alike s t) {source target : Str} :
    Alike (s.applySnapshot source target) (t.applySnapshot source target) := by
  unfold MasterState.applySnapshot
  rw [alike.files]
  generalize t.files.subtree source true = entries
  induction entries generalizing s t with
  | nil => exact alike
  | cons entry entries ih => exact ih alike.copyFile

theorem Alike.apply (alike : Alike s t) (record : LogRecord) :
    Alike (s.apply record) (t.apply record) := by
  cases record with
  | create path => exact ⟨congrArg (·.insertIfNew path {}) alike.files, alike.chunks, alike.nextHandle⟩
  | rename source target =>
      show Alike (s.applyRename source target) (t.applyRename source target)
      unfold applyRename
      rw [alike.files]
      split
      · exact alike
      · exact ⟨rfl, alike.chunks, alike.nextHandle⟩
  | remove path =>
      show Alike (s.applyRemove path) (t.applyRemove path)
      unfold applyRemove
      rw [alike.files]
      split
      · exact alike
      · exact ⟨rfl, alike.chunks.foldl fun _ _ _ same => same.dropReference, alike.nextHandle⟩
  | allocHandle handle => exact alike.applyAllocHandle
  | addChunk path index handle => exact alike.applyAddChunk
  | replaceChunk path index handle => exact alike.applyReplaceChunk
  | bumpVersion handle version =>
      refine ⟨alike.files, alike.chunks.modify fun m m' same => ?_, alike.nextHandle⟩
      cases m
      cases m'
      simp_all [ChunkMeta.forget]
  | snapshot source target => exact alike.applySnapshot
  | dropChunk handle => exact ⟨alike.files, alike.chunks.erase, alike.nextHandle⟩
  | bodyNotSet => exact alike

theorem Alike.replay (alike : Alike s t) (records : List LogRecord) :
    Alike (s.replay records) (t.replay records) := by
  induction records generalizing s t with
  | nil => exact alike
  | cons record records ih => exact ih (alike.apply record)

theorem Alike.recomputeRefcounts (alike : Alike s t) :
    s.recomputeRefcounts = t.recomputeRefcounts := by
  have zeroed : zeroRefcounts s.chunks = zeroRefcounts t.chunks := by
    refine Std.ExtTreeMap.ext_getElem? fun {handle} => ?_
    rw [zeroRefcounts, zeroRefcounts, Std.ExtTreeMap.getElem?_map, Std.ExtTreeMap.getElem?_map]
    exact alike.chunks handle
  rw [MasterState.recomputeRefcounts, MasterState.recomputeRefcounts, zeroed, alike.files,
    alike.nextHandle]

end

end MasterState

end Gfs.Master
