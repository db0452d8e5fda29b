import Gfs.Master.Tree

/-!
# Reference counts

The references to a chunk are the positions in files that hold it. The functions of
`master/master_state.cc` adjust the counters of the table along with the positions.
-/

namespace Gfs.Master
open Lib.Maps LockTable

/-- The positions in files that hold the chunk. -/
def references (files : Namespace) (handle : Handle) : Nat :=
  total (fun _ file => file.chunks.count handle) files

/-- The table counts these references and has every chunk that is referred to, not pending. -/
structure Tallies (chunks : ChunkTable) (counts : Handle → Nat) : Prop where
  exact : ∀ (handle : Handle) m, chunks[handle]? = some m → m.refcount = counts handle
  backed : ∀ handle, 0 < counts handle →
    ∃ m, chunks[handle]? = some m ∧ m.pending = false

section
variable {chunks : ChunkTable} {counts counts' : Handle → Nat} {handle old : Handle}

theorem getElem?_create {version : Nat} {other : Handle} :
    (chunks.create handle version)[other]? =
      if handle = other then some (chunks[other]?.getD { version }) else chunks[other]? := by
  rw [ChunkTable.create, Std.ExtTreeMap.getElem?_insertIfNew]
  by_cases same : handle = other
  · subst same
    obtain none | ⟨m, found⟩ := Option.eq_none_or_eq_some chunks[handle]?
    · have fresh : handle ∉ chunks := fun there => by
        simp [Std.ExtTreeMap.mem_iff_isSome_getElem?, none] at there
      simp [fresh]
    · have there : handle ∈ chunks :=
        Std.ExtTreeMap.mem_iff_isSome_getElem?.mpr (by simp [found])
      simp [there]
  · simp [same]

theorem Tallies.modify (tallies : Tallies chunks counts) {f : ChunkMeta → ChunkMeta}
    (count : ∀ m, m.refcount = counts handle → (f m).refcount = counts' handle)
    (pending : ∀ m, m.pending = false → (f m).pending = false)
    (still : 0 < counts' handle → 0 < counts handle)
    (others : ∀ other, other ≠ handle → counts' other = counts other) :
    Tallies (chunks.modify handle f) counts' := by
  constructor
  · intro other m found
    rw [getElem?_modify] at found
    split at found
    · rename_i same
      subst same
      obtain ⟨before, there, rfl⟩ := Option.map_eq_some_iff.mp found
      exact count before (tallies.exact _ before there)
    · rename_i different
      rw [others other (Ne.symm different)]
      exact tallies.exact other m found
  · intro other positive
    rw [getElem?_modify]
    by_cases same : handle = other
    · subst same
      obtain ⟨m, found, shown⟩ := tallies.backed handle (still positive)
      exact ⟨f m, by rw [if_pos rfl, found]; rfl, pending m shown⟩
    · rw [if_neg same]
      rw [others other (Ne.symm same)] at positive
      exact tallies.backed other positive

theorem Tallies.dropReference (tallies : Tallies chunks counts)
    (one : counts handle = counts' handle + 1)
    (others : ∀ other, other ≠ handle → counts' other = counts other) :
    Tallies (chunks.dropReference handle) counts' := by
  refine tallies.modify (fun m exact => ?_) (fun _ shown => shown) (fun _ => ?_) others
  · show m.refcount - 1 = counts' handle
    omega
  · omega

theorem Tallies.addReference (tallies : Tallies chunks counts) (positive : 0 < counts handle)
    (one : counts' handle = counts handle + 1)
    (others : ∀ other, other ≠ handle → counts' other = counts other) :
    Tallies (chunks.addReference handle) counts' := by
  refine tallies.modify (fun m exact => ?_) (fun _ shown => shown) (fun _ => positive) others
  show m.refcount + 1 = counts' handle
  omega

theorem Tallies.create (tallies : Tallies chunks counts) (zero : handle ∉ chunks → counts handle = 0)
    {version : Nat} : Tallies (chunks.create handle version) counts := by
  constructor
  · intro other m found
    rw [getElem?_create] at found
    split at found
    · rename_i same
      subst same
      obtain absent | ⟨there, present⟩ := Option.eq_none_or_eq_some chunks[handle]?
      · rw [absent] at found
        cases found
        refine (zero fun there => ?_).symm
        simp [Std.ExtTreeMap.mem_iff_isSome_getElem?, absent] at there
      · rw [present] at found
        cases found
        exact tallies.exact _ _ present
    · exact tallies.exact other m found
  · intro other positive
    obtain ⟨m, found, shown⟩ := tallies.backed other positive
    refine ⟨m, ?_, shown⟩
    rw [getElem?_create, found]
    split <;> rfl

theorem Tallies.unreferenced (tallies : Tallies chunks counts) (absent : handle ∉ chunks) :
    counts handle = 0 := by
  by_contra some
  obtain ⟨m, found, _⟩ := tallies.backed handle (Nat.pos_of_ne_zero some)
  exact absent (Std.ExtTreeMap.mem_iff_isSome_getElem?.mpr (by simp [found]))

theorem Tallies.refer (tallies : Tallies chunks counts) (one : counts' handle = counts handle + 1)
    (others : ∀ other, other ≠ handle → counts' other = counts other) :
    Tallies ((chunks.create handle 1).modify handle fun m =>
      { m with pending := false, refcount := m.refcount + 1 }) counts' := by
  have created : Tallies (chunks.create handle 1) counts :=
    tallies.create fun absent => tallies.unreferenced absent
  constructor
  · intro other m found
    rw [getElem?_modify] at found
    split at found
    · rename_i same
      subst same
      obtain ⟨before, there, rfl⟩ := Option.map_eq_some_iff.mp found
      rw [one, ← created.exact _ before there]
    · rename_i different
      rw [others other (Ne.symm different)]
      exact created.exact other m found
  · intro other positive
    rw [getElem?_modify]
    by_cases same : handle = other
    · subst same
      rw [if_pos rfl, getElem?_create, if_pos rfl]
      exact ⟨_, rfl, rfl⟩
    · rw [if_neg same]
      rw [others other (Ne.symm same)] at positive
      exact created.backed other positive

theorem Tallies.erase (tallies : Tallies chunks counts) (zero : counts handle = 0) :
    Tallies (chunks.erase handle) counts := by
  constructor
  · intro other m found
    rw [getElem?_erase] at found
    split at found
    · cases found
    · exact tallies.exact other m found
  · intro other positive
    obtain ⟨m, found, shown⟩ := tallies.backed other positive
    refine ⟨m, ?_, shown⟩
    rw [getElem?_erase, if_neg, found]
    rintro rfl
    omega

theorem Tallies.foldl_dropReference {handles : List Handle} (tallies : Tallies chunks counts)
    (split : ∀ other, counts other = counts' other + handles.count other) :
    Tallies (handles.foldl ChunkTable.dropReference chunks) counts' := by
  induction handles generalizing chunks counts with
  | nil =>
      have same : counts = counts' := funext fun other => by simpa using split other
      exact same ▸ tallies
  | cons first rest ih =>
      have next : Tallies (chunks.dropReference first) fun other =>
          counts' other + rest.count other := by
        refine tallies.dropReference ?_ fun other different => ?_
        · have here := split first
          rw [List.count_cons_self] at here
          omega
        · have there := split other
          rw [List.count_cons_of_ne (Ne.symm different)] at there
          exact there.symm
      exact ih next fun _ => rfl

theorem Tallies.foldl_addReference {handles : List Handle} (tallies : Tallies chunks counts)
    (positive : ∀ h ∈ handles, 0 < counts h)
    (split : ∀ other, counts' other = counts other + handles.count other) :
    Tallies (handles.foldl ChunkTable.addReference chunks) counts' := by
  induction handles generalizing chunks counts with
  | nil =>
      have same : counts = counts' := funext fun other => by simpa using (split other).symm
      exact same ▸ tallies
  | cons first rest ih =>
      have next : Tallies (chunks.addReference first) fun other =>
          counts other + if other = first then 1 else 0 := by
        refine tallies.addReference (positive first List.mem_cons_self) ?_ fun other different => ?_
        · rw [if_pos rfl]
        · rw [if_neg different, Nat.add_zero]
      refine ih next (fun h member => ?_) fun other => ?_
      · exact Nat.lt_of_lt_of_le (positive h (List.mem_cons_of_mem _ member)) (Nat.le_add_right _ _)
      · rw [split other, List.count_cons]
        by_cases same : other = first
        · subst same
          simp
          omega
        · simp [same, Ne.symm same]

end

/-! ## References under the operations on the namespace -/

section
variable {files : Namespace} {path source target : Str} {file old : FileMeta} {handle : Handle}

theorem references_insert (found : files[path]? = some old) :
    references (files.insert path file) handle + old.chunks.count handle =
      references files handle + file.chunks.count handle :=
  total_update found

theorem references_add (absent : files[path]? = none) :
    references (files.insertIfNew path file) handle =
      references files handle + file.chunks.count handle := by
  have same : files.insertIfNew path file = files.insert path file := by
    refine Std.ExtTreeMap.ext_getElem? fun {k} => ?_
    rw [Std.ExtTreeMap.getElem?_insertIfNew, getElem?_insert]
    by_cases same : path = k
    · subst same
      have fresh : path ∉ files := fun there => by
        simp [Std.ExtTreeMap.mem_iff_isSome_getElem?, absent] at there
      simp [fresh]
    · simp [same]
  rw [same]
  exact total_insert absent

theorem references_create : references (files.insertIfNew path {}) handle = references files handle := by
  obtain absent | ⟨file, found⟩ := Option.eq_none_or_eq_some files[path]?
  · exact (references_add absent).trans (by simp)
  · have same : files.insertIfNew path {} = files := by
      refine Std.ExtTreeMap.ext_getElem? fun {k} => ?_
      rw [Std.ExtTreeMap.getElem?_insertIfNew, if_neg]
      rintro ⟨_, absent⟩
      exact absent (Std.ExtTreeMap.mem_iff_isSome_getElem?.mpr (by simp [found]))
    rw [same]

theorem references_erase (found : files[path]? = some file) :
    references files handle = references (files.erase path) handle + file.chunks.count handle :=
  total_erase found

theorem references_pos (found : files[path]? = some file) (member : handle ∈ file.chunks) :
    0 < references files handle := by
  have bound : file.chunks.count handle ≤ references files handle :=
    le_total (f := fun _ file => file.chunks.count handle) found
  exact Nat.lt_of_lt_of_le (List.count_pos_iff.mpr member) bound

theorem eq_of_references_one {path' : Str} {file' : FileMeta} (one : references files handle = 1)
    (found : files[path]? = some file) (member : handle ∈ file.chunks)
    (found' : files[path']? = some file') (member' : handle ∈ file'.chunks) : path = path' := by
  by_contra different
  have both : file.chunks.count handle + file'.chunks.count handle ≤ references files handle :=
    add_le_total (f := fun _ file => file.chunks.count handle) found found' different
  have here := List.count_pos_iff.mpr member
  have there := List.count_pos_iff.mpr member'
  omega

theorem exists_of_references_pos (positive : 0 < references files handle) :
    ∃ (path : Str) (file : FileMeta), files[path]? = some file ∧ handle ∈ file.chunks := by
  by_contra none
  refine Nat.ne_of_gt positive (total_eq_zero fun path file found => ?_)
  refine List.count_eq_zero.mpr fun member => none ⟨path, file, found, member⟩

theorem references_set {index : Nat} {there other : Handle} (found : files[path]? = some file)
    (old : file.chunks[index]? = some there) :
    references (files.insert path { chunks := file.chunks.set index handle }) other +
      (if there = other then 1 else 0) =
        references files other + if handle = other then 1 else 0 := by
  obtain ⟨inside, atIndex⟩ := List.getElem?_eq_some_iff.mp old
  have changed : references (files.insert path { chunks := file.chunks.set index handle }) other +
      file.chunks.count other = references files other + (file.chunks.set index handle).count other :=
    references_insert found
  have bound : file.chunks.count other ≤ references files other :=
    le_total (f := fun _ file => file.chunks.count other) found
  have positive : there = other → 0 < file.chunks.count other := by
    rintro rfl
    exact List.count_pos_iff.mpr (List.mem_of_getElem? old)
  rw [List.count_set inside, atIndex] at changed
  simp only [beq_iff_eq] at changed
  by_cases same : there = other
  · have some := positive same
    rw [if_pos same] at changed ⊢
    omega
  · rw [if_neg same] at changed ⊢
    omega

theorem references_rename (source' : source ≠ ['/']) (target' : target ≠ ['/'])
    (free : files.Free target) :
    references (files.renameSubtree source target) handle = references files handle := by
  refine (total_eq_of_perm (Namespace.toList_rename_perm source' target' free.vacant)).trans ?_
  rw [List.map_map]
  rfl

end

/-! ## The functions of the state -/

namespace MasterState

/-- The table counts the references exactly. -/
def Counted (s : MasterState) : Prop := Tallies s.chunks (references s.files)

section
variable {s : MasterState} {path source target : Str} {index : Nat} {handle : Handle}
  {file : FileMeta}

theorem Counted.applyCreate (counted : Counted s) : Counted (s.applyCreate path) := by
  have same : references (s.applyCreate path).files = references s.files :=
    funext fun _ => references_create
  rw [Counted, same]
  exact counted

theorem Counted.applyRename (counted : Counted s) (source' : source ≠ ['/'])
    (target' : target ≠ ['/']) (free : s.files.Free target) :
    Counted (s.applyRename source target) := by
  unfold MasterState.applyRename
  split
  · exact counted
  · have same : references (s.files.renameSubtree source target) = references s.files :=
      funext fun _ => references_rename source' target' free
    rw [Counted, same]
    exact counted

theorem Counted.applyRemove (counted : Counted s) : Counted (s.applyRemove path) := by
  unfold MasterState.applyRemove
  split
  · exact counted
  · rename_i file found
    exact Tallies.foldl_dropReference counted fun _ => references_erase found

theorem Counted.refer {files : Namespace} {chunks : ChunkTable} {next : Nat}
    {counts : Handle → Nat} (tallies : Tallies chunks counts)
    (one : references files handle = counts handle + 1)
    (others : ∀ other, other ≠ handle → references files other = counts other) :
    Counted (MasterState.refer ⟨files, chunks, next⟩ handle) :=
  tallies.refer one others

theorem Counted.applyReplaceChunk (counted : Counted s) :
    Counted (s.applyReplaceChunk path index handle) := by
  unfold MasterState.applyReplaceChunk
  split
  · exact counted
  · rename_i file found
    split
    · exact counted
    · rename_i old there
      split
      · exact counted
      · rename_i different
        have moved : ∀ other, _ = references s.files other + if handle = other then 1 else 0 :=
          fun _ => references_set found there
        have dropped : Tallies (s.chunks.dropReference old) fun other =>
            references s.files other - if old = other then 1 else 0 := by
          refine Tallies.dropReference counted ?_ fun other distinct => ?_
          · have some := references_pos found (List.mem_of_getElem? there)
            rw [if_pos rfl]
            omega
          · rw [if_neg (Ne.symm distinct), Nat.sub_zero]
        refine Counted.refer dropped ?_ fun other distinct => ?_
        · have total := moved handle
          rw [if_neg different, if_pos rfl] at total
          rw [if_neg different]
          exact total
        · have total := moved other
          rw [if_neg (Ne.symm distinct)] at total
          omega

theorem Counted.applyAddChunk (counted : Counted s) :
    Counted (s.applyAddChunk path index handle) := by
  unfold MasterState.applyAddChunk
  split
  · exact counted
  · rename_i file found
    split
    · split
      · exact counted
      · exact counted.applyReplaceChunk
    · split
      · exact counted
      · have changed : ∀ other, references (s.files.insert path
            { chunks := file.chunks ++ [handle] }) other + file.chunks.count other =
              references s.files other + (file.chunks ++ [handle]).count other :=
          fun other => references_insert found
        refine Counted.refer counted ?_ fun other distinct => ?_
        · have total := changed handle
          rw [List.count_append, List.count_singleton_self] at total
          omega
        · have total := changed other
          rw [List.count_append, List.count_singleton, if_neg] at total
          · omega
          · simp [Ne.symm distinct]

theorem Counted.copyFile (counted : Counted s) {entry : Str × FileMeta}
    (positive : ∀ h ∈ entry.2.chunks, 0 < references s.files h) :
    Counted (s.copyFile source target entry) := by
  unfold MasterState.copyFile
  dsimp only
  split
  · exact counted
  · rename_i absent
    refine Tallies.foldl_addReference counted positive fun other => references_add ?_
    exact Std.ExtTreeMap.getElem?_eq_none fun there =>
      absent (Std.ExtTreeMap.contains_iff_mem.mpr there)

theorem references_copyFile {entry : Str × FileMeta} :
    references s.files handle ≤ references (s.copyFile source target entry).files handle := by
  unfold MasterState.copyFile
  dsimp only
  split
  · exact Nat.le_refl _
  · rename_i absent
    rw [references_add]
    · exact Nat.le_add_right _ _
    · exact Std.ExtTreeMap.getElem?_eq_none fun there =>
        absent (Std.ExtTreeMap.contains_iff_mem.mpr there)

theorem Counted.applySnapshot (counted : Counted s) (source' : source ≠ ['/']) :
    Counted (s.applySnapshot source target) := by
  have listed : ∀ entry ∈ s.files.subtree source true, ∀ h ∈ entry.2.chunks,
      0 < references s.files h := by
    rintro ⟨p, file⟩ member h inFile
    exact references_pos ((Namespace.mem_subtree source').mp member).1 inFile
  unfold MasterState.applySnapshot
  generalize s.files.subtree source true = entries at listed
  induction entries generalizing s with
  | nil => exact counted
  | cons entry entries ih =>
      refine ih (counted.copyFile (listed entry List.mem_cons_self)) fun later member h inFile => ?_
      exact Nat.lt_of_lt_of_le (listed later (List.mem_cons_of_mem _ member) h inFile)
        references_copyFile

/-! ## `RecomputeRefcounts` -/

def recount (chunks : ChunkTable) (counts : Handle → Nat) : ChunkTable :=
  chunks.map fun handle m => { m with refcount := counts handle }

theorem getElem?_recount {chunks : ChunkTable} {counts : Handle → Nat} :
    (recount chunks counts)[handle]? =
      chunks[handle]?.map fun m => { m with refcount := counts handle } :=
  Std.ExtTreeMap.getElem?_map

theorem countReference_recount {counts : Handle → Nat} (there : handle ∈ s.chunks)
    (bound : u64 (handle + 1) ≤ s.nextHandle) :
    countReference { s with chunks := recount s.chunks counts } handle =
      { s with chunks := recount s.chunks fun other =>
          counts other + if other = handle then 1 else 0 } := by
  have next : max s.nextHandle (u64 (handle + 1)) = s.nextHandle := Nat.max_eq_left bound
  have chunks : ((recount s.chunks counts).create handle 1).addReference handle =
      recount s.chunks fun other => counts other + if other = handle then 1 else 0 := by
    refine Std.ExtTreeMap.ext_getElem? fun {other} => ?_
    rw [ChunkTable.addReference, getElem?_modify, getElem?_create, getElem?_recount,
      getElem?_recount]
    by_cases same : handle = other
    · subst same
      obtain ⟨m, found⟩ := Option.isSome_iff_exists.mp
        (Std.ExtTreeMap.mem_iff_isSome_getElem?.mp there)
      simp [found]
    · rw [if_neg same, if_neg same, if_neg (Ne.symm same)]
      rfl
  rw [countReference]
  dsimp only
  rw [chunks, applyAllocHandle]
  dsimp only
  rw [next]

theorem recomputeRefcounts_eq (backed : ∀ handle, 0 < references s.files handle →
    handle ∈ s.chunks ∧ u64 (handle + 1) ≤ s.nextHandle) :
    s.recomputeRefcounts = { s with chunks := recount s.chunks (references s.files) } := by
  have counted : ∀ (handles : List Handle) (counts : Handle → Nat),
      (∀ handle ∈ handles, handle ∈ s.chunks ∧ u64 (handle + 1) ≤ s.nextHandle) →
      handles.foldl countReference { s with chunks := recount s.chunks counts } =
        { s with chunks := recount s.chunks fun other => counts other + handles.count other } := by
    intro handles
    induction handles with
    | nil => simp
    | cons handle rest ih =>
        intro counts there
        obtain ⟨member, bound⟩ := there handle List.mem_cons_self
        rw [List.foldl_cons, countReference_recount member bound,
          ih _ fun later inRest => there later (List.mem_cons_of_mem _ inRest)]
        congr 2
        funext other
        rw [List.count_cons]
        by_cases same : other = handle
        · subst same
          simp
          omega
        · simp [same, Ne.symm same]
  have flat : references s.files = fun handle =>
      0 + (s.files.toList.flatMap fun entry => entry.2.chunks).count handle := by
    funext handle
    rw [Nat.zero_add, List.count_flatMap]
    rfl
  have listed : ∀ handle ∈ s.files.toList.flatMap fun entry => entry.2.chunks,
      handle ∈ s.chunks ∧ u64 (handle + 1) ≤ s.nextHandle := by
    intro handle member
    obtain ⟨⟨path, file⟩, inFiles, inFile⟩ := List.mem_flatMap.mp member
    exact backed handle
      (references_pos (Std.ExtTreeMap.mem_toList_iff_getElem?_eq_some.mp inFiles) inFile)
  rw [flat, ← counted _ _ listed, List.foldl_flatMap]
  rfl

end

end MasterState

end Gfs.Master
