import Gfs.Master.References

/-!
# Moving and copying subtrees

`RenameSubtree` to a vacant path moves just the subtree and can be undone. Applying a record again
changes nothing.
-/

namespace Gfs.Master
open Lib.Maps

namespace Namespace

section
variable {files : Namespace} {path source target : Str}

theorem ne_root_of_not_above (outside : isAncestorOrSelf source target = false) : source ≠ ['/'] := by
  rintro rfl
  rw [isAncestorOrSelf_root] at outside
  cases outside

theorem not_both (apart : isAncestorOrSelf source target = false)
    (apart' : isAncestorOrSelf target source = false) (below : isAncestorOrSelf source path = true) :
    isAncestorOrSelf target path = false := by
  by_contra both
  rw [Bool.not_eq_false] at both
  rcases isAncestorOrSelf_comparable below both with one | other
  · rw [apart] at one
    cases one
  · rw [apart'] at other
    cases other

theorem rebase_suffix {suffix : Str} (target' : target ≠ ['/']) (source' : source ≠ ['/'])
    (part : suffix = [] ∨ suffix.head? = some '/') :
    isAncestorOrSelf target (target ++ suffix) = true ∧
      rebase target source (target ++ suffix) = source ++ suffix := by
  rcases part with rfl | slash
  · rw [List.append_nil, List.append_nil, rebase, if_pos rfl]
    exact ⟨isAncestorOrSelf_self, rfl⟩
  · obtain ⟨rest, rfl⟩ : ∃ rest, suffix = '/' :: rest := by
      cases suffix with
      | nil => cases slash
      | cons c rest =>
          cases slash
          exact ⟨rest, rfl⟩
    have below : childPrefix target <+: target ++ '/' :: rest := by
      rw [childPrefix_of_ne target']
      exact ⟨rest, by simp⟩
    refine ⟨isAncestorOrSelf_of_childPrefix below, ?_⟩
    rw [rebase_below source' below target', childPrefix_of_ne target']
    simp

theorem renamed_vacant (source' : source ≠ ['/']) (target' : target ≠ ['/'])
    (apart : isAncestorOrSelf source target = false)
    (apart' : isAncestorOrSelf target source = false) :
    Vacant (files.renameSubtree source target) source := by
  intro q member
  by_contra below
  rw [Bool.not_eq_false] at below
  obtain ⟨file, found⟩ := mem_iff.mp member
  rw [getElem?_renameSubtree source' target', not_both apart apart' below, below] at found
  cases found

/-- Renaming back restores the namespace. -/
theorem rename_back (source' : source ≠ ['/']) (target' : target ≠ ['/'])
    (vacant : Vacant files target) (apart : isAncestorOrSelf source target = false)
    (apart' : isAncestorOrSelf target source = false) :
    (files.renameSubtree source target).renameSubtree target source = files := by
  have cleared : Vacant (files.renameSubtree source target) source :=
    renamed_vacant source' target' apart apart'
  refine Std.ExtTreeMap.ext_getElem? fun {path} => ?_
  rw [getElem?_rename_vacant target' source' cleared, getElem?_rename_vacant source' target' vacant,
    getElem?_rename_vacant source' target' vacant]
  by_cases below : isAncestorOrSelf source path = true
  · rw [if_pos below, if_pos isAncestorOrSelf_rebase, rebase_rebase source' target' below]
  · rw [if_neg below, if_neg below]
    by_cases inTarget : isAncestorOrSelf target path = true
    · rw [if_pos inTarget, vacant.getElem? inTarget]
    · rw [if_neg inTarget, if_neg inTarget]

theorem size_rename (source' : source ≠ ['/']) (target' : target ≠ ['/'])
    (vacant : Vacant files target) : (files.renameSubtree source target).size = files.size := by
  have length := (toList_rename_perm source' target' vacant).length_eq
  rw [List.length_map] at length
  rw [← Std.ExtTreeMap.length_toList, ← Std.ExtTreeMap.length_toList, length]

/-- `RenameSubtree` between paths that are apart moves just the subtree. -/
theorem renameSubtree_moves (apart : isAncestorOrSelf source target = false)
    (apart' : isAncestorOrSelf target source = false)
    (absent : (files.contains target || files.isDirectory target) = false) :
    (∀ suffix : Str, suffix = [] ∨ suffix.head? = some '/' →
      (files.renameSubtree source target)[target ++ suffix]? = files[source ++ suffix]?) ∧
    (∀ path : Str, isAncestorOrSelf source path = true →
      (files.renameSubtree source target)[path]? = none) ∧
    (∀ path : Str, isAncestorOrSelf source path = false → isAncestorOrSelf target path = false →
      (files.renameSubtree source target)[path]? = files[path]?) ∧
    (files.renameSubtree source target).size = files.size ∧
    (files.renameSubtree source target).renameSubtree target source = files := by
  have notRoot := ne_root_of_not_above apart
  have notRoot' := ne_root_of_not_above apart'
  have vacant := vacant_of_checks notRoot' absent
  refine ⟨fun suffix part => ?_, fun path below => ?_, fun path outside outside' => ?_,
    size_rename notRoot notRoot' vacant, rename_back notRoot notRoot' vacant apart apart'⟩
  · obtain ⟨below, same⟩ := rebase_suffix notRoot' notRoot part
    rw [getElem?_rename_vacant notRoot notRoot' vacant, if_pos below, same]
  · exact (renamed_vacant notRoot notRoot' apart apart').getElem? below
  · rw [getElem?_rename_vacant notRoot notRoot' vacant, outside, outside']
    rfl

end

/-- `/a` is a directory, and `/ab` is beside it. -/
def siblings : Namespace :=
  ((∅ : Namespace).insert ['/', 'a', '/', 'x'] ⟨[1]⟩).insert ['/', 'a', 'b'] ⟨[2]⟩

theorem renameSubtree_moves_siblings :
    (siblings.renameSubtree ['/', 'a'] ['/', 'c'])[['/', 'c'] ++ ['/', 'x']]? =
        siblings[['/', 'a'] ++ ['/', 'x']]? ∧
      (siblings.renameSubtree ['/', 'a'] ['/', 'c'])[['/', 'a', 'b']]? =
        siblings[['/', 'a', 'b']]? := by
  obtain ⟨moved, -, others, -⟩ := @renameSubtree_moves siblings ['/', 'a'] ['/', 'c'] (by decide)
    (by decide) (by decide +kernel)
  exact ⟨moved _ (.inr rfl), others _ (by decide) (by decide)⟩

end Namespace

/-! ## Replaying a record again -/

namespace MasterState
open Namespace

/-- The paths of a rename or of a snapshot are not at, above or below each other. -/
def Separate : LogRecord → Prop
  | .rename source target | .snapshot source target =>
      isAncestorOrSelf source target = false ∧ isAncestorOrSelf target source = false
  | _ => True

section
variable {s : MasterState} {path source target : Str} {index : Nat} {handle : Handle}

theorem applyRename_vacant (notRoot : source ≠ ['/']) (vacant : Vacant s.files source) :
    s.applyRename source target = s := by
  have stands : ¬ Stands s.files source := by
    rintro ⟨q, member, below⟩
    rw [vacant q member] at below
    cases below
  rw [← stands_iff notRoot, Bool.not_eq_true, Bool.or_eq_false_iff] at stands
  rw [applyRename, stands.1, stands.2]
  rfl

theorem applyRename_twice (apart : isAncestorOrSelf source target = false)
    (apart' : isAncestorOrSelf target source = false) :
    (s.applyRename source target).applyRename source target = s.applyRename source target := by
  have notRoot := ne_root_of_not_above apart
  by_cases there : (!s.files.contains source && !s.files.isDirectory source) = true
  · have same : s.applyRename source target = s := if_pos there
    rw [same, same]
  · apply applyRename_vacant notRoot
    rw [applyRename, if_neg there]
    exact renamed_vacant notRoot (ne_root_of_not_above apart') apart apart'

theorem applyRemove_twice : (s.applyRemove path).applyRemove path = s.applyRemove path := by
  have gone : (s.applyRemove path).files[path]? = none := by
    unfold applyRemove
    split
    case h_1 none => exact none
    case h_2 => exact Std.ExtTreeMap.getElem?_erase_self
  generalize s.applyRemove path = t at gone
  rw [applyRemove, gone]

theorem applyReplaceChunk_there {file : FileMeta} (found : s.files[path]? = some file)
    (there : file.chunks[index]? = some handle) : s.applyReplaceChunk path index handle = s := by
  rw [applyReplaceChunk, found]
  dsimp only
  rw [there]
  exact if_pos rfl

theorem applyAddChunk_there {file : FileMeta} (found : s.files[path]? = some file)
    (there : file.chunks[index]? = some handle) : s.applyAddChunk path index handle = s := by
  rw [applyAddChunk, found]
  dsimp only
  rw [there]
  exact if_pos rfl

theorem applyReplaceChunk_spec : s.applyReplaceChunk path index handle = s ∨
    ∃ file, (s.applyReplaceChunk path index handle).files[path]? = some file ∧
      file.chunks[index]? = some handle := by
  unfold applyReplaceChunk
  split
  · exact .inl rfl
  case h_2 file found =>
    split
    · exact .inl rfl
    case h_2 old there =>
      split
      · exact .inl rfl
      · refine .inr ⟨_, Std.ExtTreeMap.getElem?_insert_self, ?_⟩
        exact List.getElem?_set_self (List.getElem?_eq_some_iff.mp there).1

theorem applyAddChunk_spec : s.applyAddChunk path index handle = s ∨
    ∃ file, (s.applyAddChunk path index handle).files[path]? = some file ∧
      file.chunks[index]? = some handle := by
  unfold applyAddChunk
  split
  · exact .inl rfl
  case h_2 file found =>
    split
    · split
      · exact .inl rfl
      · exact applyReplaceChunk_spec
    · split
      · exact .inl rfl
      case isFalse last =>
        refine .inr ⟨_, Std.ExtTreeMap.getElem?_insert_self, ?_⟩
        rw [not_not.mp last, List.getElem?_append_right le_rfl, Nat.sub_self]
        rfl

theorem applySnapshot_twice (apart : isAncestorOrSelf source target = false)
    (apart' : isAncestorOrSelf target source = false) :
    (s.applySnapshot source target).applySnapshot source target = s.applySnapshot source target := by
  have notRoot := ne_root_of_not_above apart
  have copied : ∀ k, k ∈ (s.applySnapshot source target).files ↔
      k ∈ s.files ∨ k ∈ (s.files.subtree source true).map fun entry => rebase source target entry.1 := by
    intro k
    rw [files_applySnapshot]
    exact mem_foldl_insertIfNew (fun entry : Str × FileMeta => rebase source target entry.1) (·.2) _ _ k
  have again : ∀ entry ∈ (s.applySnapshot source target).files.subtree source true,
      rebase source target entry.1 ∈ (s.applySnapshot source target).files := by
    rintro ⟨p, file⟩ member
    obtain ⟨found, below, shown⟩ := (mem_subtree notRoot).mp member
    rcases (copied p).mp (mem_iff.mpr ⟨file, found⟩) with before | copy
    · obtain ⟨file', found'⟩ := mem_iff.mp before
      refine (copied _).mpr (.inr (List.mem_map.mpr ⟨(p, file'), ?_, rfl⟩))
      exact (mem_subtree notRoot).mpr ⟨found', below, shown⟩
    · obtain ⟨entry, -, rfl⟩ := List.mem_map.mp copy
      have both := not_both apart apart' below
      rw [isAncestorOrSelf_rebase] at both
      cases both
  generalize s.applySnapshot source target = t at again
  rw [applySnapshot]
  generalize t.files.subtree source true = entries at again
  induction entries with
  | nil => rfl
  | cons entry entries ih =>
      have there : t.files.contains (rebase source target entry.1) = true :=
        Std.ExtTreeMap.contains_iff_mem.mpr (again entry List.mem_cons_self)
      have skipped : copyFile source target t entry = t := if_pos there
      rw [List.foldl_cons, skipped]
      exact ih fun later member => again later (List.mem_cons_of_mem _ member)

end

/-- Replaying a record twice is replaying it once. -/
theorem apply_twice (s : MasterState) (record : LogRecord) (separate : Separate record) :
    (s.apply record).apply record = s.apply record := by
  cases record with
  | create path =>
      have same : (s.files.insertIfNew path {}).insertIfNew path {} = s.files.insertIfNew path {} := by
        refine Std.ExtTreeMap.ext_getElem? fun {k} => ?_
        rw [Std.ExtTreeMap.getElem?_insertIfNew, if_neg]
        rintro ⟨-, absent⟩
        exact absent (Std.ExtTreeMap.mem_insertIfNew.mpr (.inl Std.compare_self))
      exact congrArg (fun files => { s with files }) same
  | rename source target => exact applyRename_twice separate.1 separate.2
  | remove path => exact applyRemove_twice
  | allocHandle handle =>
      have same : max (max s.nextHandle (u64 (handle + 1))) (u64 (handle + 1)) =
          max s.nextHandle (u64 (handle + 1)) := by
        rw [Nat.max_assoc, Nat.max_self]
      exact congrArg (fun nextHandle => { s with nextHandle }) same
  | addChunk path index handle =>
      show (s.applyAddChunk path index handle).applyAddChunk path index handle = _
      rcases applyAddChunk_spec (s := s) with same | ⟨file, found, there⟩
      · exact congrArg (·.applyAddChunk path index handle) same
      · exact applyAddChunk_there found there
  | replaceChunk path index handle =>
      show (s.applyReplaceChunk path index handle).applyReplaceChunk path index handle = _
      rcases applyReplaceChunk_spec (s := s) with same | ⟨file, found, there⟩
      · exact congrArg (·.applyReplaceChunk path index handle) same
      · exact applyReplaceChunk_there found there
  | bumpVersion handle version =>
      have same : ∀ m : Option ChunkMeta,
          (m.map fun m => { m with version := max m.version version }).map
              (fun m : ChunkMeta => { m with version := max m.version version }) =
            m.map fun m => { m with version := max m.version version } := by
        intro m
        cases m with
        | none => rfl
        | some m => rw [Option.map_some, Option.map_some, Nat.max_assoc, Nat.max_self]
      have chunks : ((s.applyBumpVersion handle version).applyBumpVersion handle version).chunks =
          (s.applyBumpVersion handle version).chunks := by
        refine Std.ExtTreeMap.ext_getElem? fun {k} => ?_
        unfold applyBumpVersion
        dsimp only
        rw [getElem?_modify, getElem?_modify]
        split
        · exact same _
        · rfl
      exact congrArg (fun chunks => { s with chunks }) chunks
  | snapshot source target => exact applySnapshot_twice separate.1 separate.2
  | dropChunk handle =>
      have same : (s.chunks.erase handle).erase handle = s.chunks.erase handle := by
        refine Std.ExtTreeMap.ext_getElem? fun {k} => ?_
        rw [getElem?_erase, getElem?_erase]
        split <;> rfl
      exact congrArg (fun chunks => { s with chunks }) same
  | bodyNotSet => rfl

theorem apply_twice_snapshot :
    (({ files := siblings } : MasterState).apply (.snapshot ['/', 'a'] ['/', 'c'])).apply
        (.snapshot ['/', 'a'] ['/', 'c']) =
      ({ files := siblings } : MasterState).apply (.snapshot ['/', 'a'] ['/', 'c']) :=
  apply_twice _ _ ⟨by decide, by decide⟩

end MasterState

end Gfs.Master
