import Gfs.Master.LockTable
import Gfs.Master.MasterState

/-!
# The namespace as a tree

The operations on the namespace put files where nothing stands: not at, above or below any file. So
they leave no name that is at once a file and a directory, they lose no file, and they change nothing
but what lies at or below their own paths.
-/

namespace Gfs.Master
open Lib.Maps LockTable

namespace Namespace

/-- A name is never at once a file and a directory. -/
def PrefixFree (files : Namespace) : Prop :=
  ∀ p ∈ files, ∀ q ∈ files, isAncestorOrSelf p q = true → p = q

/-- No file at, above or below the path. -/
def Free (files : Namespace) (path : Str) : Prop := ∀ q ∈ files, Apart path q

/-- No file at or below the path. -/
def Vacant (files : Namespace) (path : Str) : Prop :=
  ∀ q ∈ files, isAncestorOrSelf path q = false

def AllProper (files : Namespace) : Prop := ∀ q ∈ files, Proper q

/-- A file or a directory. -/
def Stands (files : Namespace) (path : Str) : Prop := ∃ q ∈ files, isAncestorOrSelf path q = true

section
variable {files files' : Namespace} {path p q source target : Str} {file : FileMeta}

theorem mem_iff : p ∈ files ↔ ∃ file, files[p]? = some file := by
  rw [Std.ExtTreeMap.mem_iff_isSome_getElem?, Option.isSome_iff_exists]

theorem stands_iff (notRoot : path ≠ ['/']) :
    (files.contains path || files.isDirectory path) = true ↔ Stands files path := by
  rw [Bool.or_eq_true, Std.ExtTreeMap.contains_iff_mem, isDirectory_iff notRoot]
  constructor
  · rintro (self | ⟨below, file, found, within⟩)
    · exact ⟨path, self, isAncestorOrSelf_self⟩
    · exact ⟨below, mem_iff.mpr ⟨file, found⟩, isAncestorOrSelf_of_childPrefix within⟩
  · rintro ⟨below, member, within⟩
    rcases (isAncestorOrSelf_iff_childPrefix notRoot).mp within with rfl | within
    · exact .inl member
    · obtain ⟨file, found⟩ := mem_iff.mp member
      exact .inr ⟨below, file, found, within⟩

theorem vacant_of_checks (notRoot : path ≠ ['/'])
    (absent : (files.contains path || files.isDirectory path) = false) : Vacant files path := by
  intro q member
  by_contra below
  have stands := (stands_iff notRoot).mpr ⟨q, member, by simpa using below⟩
  rw [absent] at stands
  cases stands

theorem free_of_checks (proper : AllProper files) (path' : Proper path)
    (absent : (files.contains path || files.isDirectory path) = false)
    (above : files.hasFileAncestor path = false) : Free files path := by
  intro q member
  have notAbove := vacant_of_checks path'.notRoot absent q member
  refine ⟨notAbove, ?_⟩
  by_contra below
  have different : q ≠ path := by
    rintro rfl
    rw [isAncestorOrSelf_self] at notAbove
    cases notAbove
  have found := (hasFileAncestor_iff path'.notRoot proper).mpr
    ⟨q, member, by simpa using below, different⟩
  rw [above] at found
  cases found

theorem Free.vacant (free : Free files path) : Vacant files path := fun q member => (free q member).1

theorem Vacant.getElem? (vacant : Vacant files path) (below : isAncestorOrSelf path q = true) :
    files[q]? = none := by
  refine Std.ExtTreeMap.getElem?_eq_none fun member => ?_
  rw [vacant q member] at below
  cases below

/-! ## Renaming to a vacant path -/

theorem getElem?_rename_vacant (source' : source ≠ ['/']) (target' : target ≠ ['/'])
    (vacant : Vacant files target) :
    (files.renameSubtree source target)[path]? =
      if isAncestorOrSelf target path = true then files[rebase target source path]?
      else if isAncestorOrSelf source path = true then none else files[path]? := by
  rw [getElem?_renameSubtree source' target']
  by_cases below : isAncestorOrSelf target path = true
  · rw [if_pos below, if_pos below, vacant.getElem? below, ite_self, Option.or_none]
  · rw [if_neg below, if_neg below, Option.none_or]

theorem getElem?_rename (source' : source ≠ ['/']) (target' : target ≠ ['/'])
    (free : Free files target) :
    (files.renameSubtree source target)[path]? =
      if isAncestorOrSelf target path = true then files[rebase target source path]?
      else if isAncestorOrSelf source path = true then none else files[path]? :=
  getElem?_rename_vacant source' target' free.vacant

theorem toList_rename_perm (source' : source ≠ ['/']) (target' : target ≠ ['/'])
    (vacant : Vacant files target) :
    (files.renameSubtree source target).toList.Perm (files.toList.map fun entry =>
      (if isAncestorOrSelf source entry.1 = true then rebase source target entry.1 else entry.1,
        entry.2)) := by
  have elsewhere : ∀ q ∈ files, ∀ p, rebase source target p ≠ q := by
    rintro _ member p rfl
    have apart := vacant _ member
    rw [isAncestorOrSelf_rebase] at apart
    cases apart
  have injective : ∀ p q, p ∈ files → q ∈ files →
      (if isAncestorOrSelf source p = true then rebase source target p else p) =
        (if isAncestorOrSelf source q = true then rebase source target q else q) → p = q := by
    intro p q inP inQ same
    split at same
    · rename_i belowP
      split at same
      · rename_i belowQ
        exact rebase_injective source' target' belowP belowQ same
      · exact absurd same (elsewhere q inQ p)
    · split at same
      · exact absurd same.symm (elsewhere p inP q)
      · exact same
  refine toList_perm ?_ fun k v => ?_
  · rw [List.map_map, List.Nodup, List.pairwise_map]
    have distinct := List.pairwise_map.mp (nodup_toList files)
    refine distinct.imp_of_mem fun {a b} inA inB different same => different ?_
    refine injective a.1 b.1 ?_ ?_ same
    · exact mem_iff.mpr ⟨a.2, Std.ExtTreeMap.mem_toList_iff_getElem?_eq_some.mp inA⟩
    · exact mem_iff.mpr ⟨b.2, Std.ExtTreeMap.mem_toList_iff_getElem?_eq_some.mp inB⟩
  · rw [getElem?_rename_vacant source' target' vacant]
    constructor
    · intro member
      obtain ⟨⟨p, file⟩, inFiles, same⟩ := List.mem_map.mp member
      have found := Std.ExtTreeMap.mem_toList_iff_getElem?_eq_some.mp inFiles
      cases same
      dsimp only
      split
      · rename_i below
        rw [if_pos isAncestorOrSelf_rebase, rebase_rebase source' target' below]
        exact found
      · rename_i outside
        rw [vacant p (mem_iff.mpr ⟨file, found⟩), if_neg (by simp)]
        exact found
    · intro found
      split at found
      · rename_i below
        refine List.mem_map.mpr ⟨(rebase target source k, v), ?_, ?_⟩
        · exact Std.ExtTreeMap.mem_toList_iff_getElem?_eq_some.mpr found
        · dsimp only
          rw [if_pos isAncestorOrSelf_rebase, rebase_rebase target' source' below]
      · split at found
        · cases found
        · rename_i outside
          refine List.mem_map.mpr ⟨(k, v), ?_, ?_⟩
          · exact Std.ExtTreeMap.mem_toList_iff_getElem?_eq_some.mpr found
          · dsimp only
            rw [if_neg outside]

/-! ## A snapshot in a vacant path -/

theorem files_applySnapshot (s : MasterState) :
    (s.applySnapshot source target).files = (s.files.subtree source true).foldl
      (fun files entry => files.insertIfNew (rebase source target entry.1) entry.2) s.files := by
  rw [MasterState.applySnapshot]
  generalize s.files.subtree source true = entries
  induction entries generalizing s with
  | nil => rfl
  | cons entry entries ih =>
      rw [List.foldl_cons, List.foldl_cons, ih]
      congr 1
      unfold MasterState.copyFile
      dsimp only
      split
      · rename_i there
        refine Std.ExtTreeMap.ext_getElem? fun {k} => ?_
        rw [Std.ExtTreeMap.getElem?_insertIfNew, if_neg]
        rintro ⟨_, absent⟩
        exact absent (Std.ExtTreeMap.contains_iff_mem.mp there)
      · rfl

theorem getElem?_snapshot_vacant {s : MasterState} (source' : source ≠ ['/']) (target' : target ≠ ['/'])
    (vacant : Vacant s.files target) :
    (s.applySnapshot source target).files[path]? =
      if isAncestorOrSelf target path = true then
        if isHiddenPath (rebase target source path) = true then none
        else s.files[rebase target source path]?
      else s.files[path]? := by
  have inSubtree : ∀ entry ∈ s.files.subtree source true, s.files[entry.1]? = some entry.2 ∧
      isAncestorOrSelf source entry.1 = true ∧ isHiddenPath entry.1 = false := by
    rintro ⟨p, file⟩ member
    obtain ⟨found, below, shown⟩ := (mem_subtree source').mp member
    exact ⟨found, below, shown rfl⟩
  have nodup : ((s.files.subtree source true).map fun entry =>
      rebase source target entry.1).Nodup := by
    have distinct : ((s.files.subtree source true).map (·.1)).Nodup := nodup_subtree source'
    rw [List.Nodup, List.pairwise_map] at distinct ⊢
    refine distinct.imp_of_mem fun {a b} inA inB different same => different ?_
    exact rebase_injective source' target' (inSubtree a inA).2.1 (inSubtree b inB).2.1 same
  obtain ⟨added, kept⟩ := getElem?_foldl_insertIfNew
    (fun entry : Str × FileMeta => rebase source target entry.1) (·.2) nodup s.files path
  rw [files_applySnapshot]
  have absent : (∀ entry ∈ s.files.subtree source true, rebase source target entry.1 ≠ path) →
      path ∉ (s.files.subtree source true).map fun entry => rebase source target entry.1 := by
    intro none member
    obtain ⟨entry, inEntries, same⟩ := List.mem_map.mp member
    exact none entry inEntries same
  by_cases below : isAncestorOrSelf target path = true
  · rw [if_pos below]
    have back : ∀ entry ∈ s.files.subtree source true, rebase source target entry.1 = path →
        entry.1 = rebase target source path := by
      rintro entry member rfl
      exact (rebase_rebase source' target' (inSubtree entry member).2.1).symm
    split
    · rename_i hidden
      rw [kept, vacant.getElem? below]
      refine .inr (absent fun entry member same => ?_)
      have shown := (inSubtree entry member).2.2
      rw [back entry member same, hidden] at shown
      cases shown
    · rename_i shown
      obtain none | ⟨file, found⟩ := Option.eq_none_or_eq_some s.files[rebase target source path]?
      · rw [none, kept, vacant.getElem? below]
        refine .inr (absent fun entry member same => ?_)
        have found := (inSubtree entry member).1
        rw [back entry member same, none] at found
        cases found
      · have listed : (rebase target source path, file) ∈ s.files.subtree source true :=
          (mem_subtree source').mpr ⟨found, isAncestorOrSelf_rebase, fun _ => by simpa using shown⟩
        rw [added _ listed (rebase_rebase target' source' below) (vacant.getElem? below), found]
  · rw [if_neg below, kept]
    refine .inr (absent fun entry _ same => below ?_)
    rw [← same]
    exact isAncestorOrSelf_rebase

theorem getElem?_snapshot {s : MasterState} (source' : source ≠ ['/']) (target' : target ≠ ['/'])
    (free : Free s.files target) :
    (s.applySnapshot source target).files[path]? =
      if isAncestorOrSelf target path = true then
        if isHiddenPath (rebase target source path) = true then none
        else s.files[rebase target source path]?
      else s.files[path]? :=
  getElem?_snapshot_vacant source' target' free.vacant

/-! ## Prefix-freeness -/

theorem isAncestorOrSelf_rebase_mono (source' : source ≠ ['/']) (proper : Proper target)
    (inside : isAncestorOrSelf target p = true) (inside' : isAncestorOrSelf target q = true)
    (below : isAncestorOrSelf p q = true) :
    isAncestorOrSelf (rebase target source p) (rebase target source q) = true := by
  have target' := proper.notRoot
  rcases (isAncestorOrSelf_iff_childPrefix target').mp inside with rfl | within
  · rw [rebase, if_pos rfl]
    exact isAncestorOrSelf_rebase
  · have notRoot : p ≠ ['/'] := by
      rintro rfl
      rw [childPrefix_of_ne target'] at within
      have short := within.length_le
      have long := List.length_pos_iff.mpr proper.nonempty
      simp only [List.length_append, List.length_cons, List.length_nil] at short
      omega
    rcases (isAncestorOrSelf_iff_childPrefix notRoot).mp below with rfl | further
    · exact isAncestorOrSelf_self
    · have within' : childPrefix target <+: q := by
        rw [childPrefix_of_ne notRoot] at further
        exact within.trans ((List.prefix_append p ['/']).trans further)
      rw [rebase_below source' within target', rebase_below source' within' target']
      obtain ⟨x, rfl⟩ := within
      obtain ⟨y, rfl⟩ := further
      rw [childPrefix_of_ne notRoot]
      refine isAncestorOrSelf_iff.mpr (.inr (.inr ⟨y, ?_⟩))
      simp

/-- A namespace whose new files all come from elsewhere below `source` to below a free path. -/
theorem PrefixFree.graft (prefixFree : PrefixFree files) (free : Free files target)
    (source' : source ≠ ['/']) (target' : Proper target)
    (keys : ∀ q ∈ files', q ∈ files ∨
      isAncestorOrSelf target q = true ∧ rebase target source q ∈ files) : PrefixFree files' := by
  intro p inP q inQ below
  rcases keys p inP with oldP | ⟨underP, movedP⟩
  · rcases keys q inQ with oldQ | ⟨underQ, movedQ⟩
    · exact prefixFree p oldP q oldQ below
    · have apart := free p oldP
      rcases isAncestorOrSelf_comparable below underQ with inside | inside
      · rw [apart.2] at inside
        cases inside
      · rw [apart.1] at inside
        cases inside
  · rcases keys q inQ with oldQ | ⟨underQ, movedQ⟩
    · have inside := isAncestorOrSelf_trans target'.nonempty underP below
      rw [(free q oldQ).1] at inside
      cases inside
    · have same := prefixFree _ movedP _ movedQ
        (isAncestorOrSelf_rebase_mono source' target' underP underQ below)
      exact rebase_injective target'.notRoot source' underP underQ same

theorem PrefixFree.create (prefixFree : PrefixFree files) (free : Free files path) :
    PrefixFree (files.insertIfNew path {}) := by
  have keys : ∀ q ∈ files.insertIfNew path {}, q = path ∨ q ∈ files := by
    intro q member
    rcases Std.ExtTreeMap.mem_insertIfNew.mp member with same | old
    · exact .inl (Std.LawfulEqOrd.eq_of_compare same).symm
    · exact .inr old
  intro p inP q inQ below
  rcases keys p inP with rfl | oldP
  · rcases keys q inQ with rfl | oldQ
    · rfl
    · rw [(free q oldQ).1] at below
      cases below
  · rcases keys q inQ with rfl | oldQ
    · rw [(free p oldP).2] at below
      cases below
    · exact prefixFree p oldP q oldQ below

theorem PrefixFree.rename (prefixFree : PrefixFree files) (free : Free files target)
    (source' : source ≠ ['/']) (target' : Proper target) :
    PrefixFree (files.renameSubtree source target) := by
  refine prefixFree.graft free source' target' fun q member => ?_
  obtain ⟨file, found⟩ := mem_iff.mp member
  rw [getElem?_rename source' target'.notRoot free] at found
  split at found
  · rename_i below
    exact .inr ⟨below, mem_iff.mpr ⟨file, found⟩⟩
  · split at found
    · cases found
    · exact .inl (mem_iff.mpr ⟨file, found⟩)

theorem PrefixFree.snapshot {s : MasterState} (prefixFree : PrefixFree s.files)
    (free : Free s.files target) (source' : source ≠ ['/']) (target' : Proper target) :
    PrefixFree (s.applySnapshot source target).files := by
  refine prefixFree.graft free source' target' fun q member => ?_
  obtain ⟨file, found⟩ := mem_iff.mp member
  rw [getElem?_snapshot source' target'.notRoot free] at found
  split at found
  · rename_i below
    split at found
    · cases found
    · exact .inr ⟨below, mem_iff.mpr ⟨file, found⟩⟩
  · exact .inl (mem_iff.mpr ⟨file, found⟩)

theorem PrefixFree.of_subset (prefixFree : PrefixFree files) (keys : ∀ q ∈ files', q ∈ files) :
    PrefixFree files' :=
  fun p inP q inQ => prefixFree p (keys p inP) q (keys q inQ)

theorem AllProper.graft (proper : AllProper files) (target' : Proper target)
    (keys : ∀ q ∈ files', q ∈ files ∨ isAncestorOrSelf target q = true) : AllProper files' := by
  intro q member
  rcases keys q member with old | below
  · exact proper q old
  · refine ⟨?_, ?_⟩
    · rintro rfl
      rcases isAncestorOrSelf_iff.mp below with same | root | short
      · exact target'.nonempty same
      · exact target'.notRoot root
      · simp at short
    · rintro rfl
      exact target'.notRoot (eq_root_of_isAncestorOrSelf target'.nonempty below)

/-! ## Where the operations change the namespace -/

/-- Only what lies at or below one of the paths is changed. -/
def Within (paths : List Str) (files files' : Namespace) : Prop :=
  ∀ q, (∀ p ∈ paths, isAncestorOrSelf p q = false) → files'[q]? = files[q]?

theorem within_create : Within [path] files (files.insertIfNew path {}) := by
  intro q outside
  have different : path ≠ q := by
    rintro rfl
    simpa using outside path (List.mem_singleton.mpr rfl)
  rw [Std.ExtTreeMap.getElem?_insertIfNew, if_neg]
  exact fun both => different (Std.LawfulEqOrd.eq_of_compare both.1)

theorem within_erase : Within [path] files (files.erase path) := by
  intro q outside
  have different : path ≠ q := by
    rintro rfl
    simpa using outside path (List.mem_singleton.mpr rfl)
  rw [getElem?_erase, if_neg different]

theorem within_rename (source' : source ≠ ['/']) (target' : target ≠ ['/'])
    (free : Free files target) :
    Within [source, target] files (files.renameSubtree source target) := by
  intro q outside
  have notSource := outside source List.mem_cons_self
  have notTarget := outside target (List.mem_cons_of_mem _ List.mem_cons_self)
  rw [getElem?_rename source' target' free]
  simp [notSource, notTarget]

theorem within_snapshot {s : MasterState} (source' : source ≠ ['/']) (target' : target ≠ ['/'])
    (free : Free s.files target) :
    Within [target] s.files (s.applySnapshot source target).files := by
  intro q outside
  have notTarget := outside target List.mem_cons_self
  rw [getElem?_snapshot source' target' free]
  simp [notTarget]

/-! ## What `Rename` and `Snapshot` validate -/

structure Validated (files : Namespace) (source target : Str) : Prop where
  properSource : Proper source
  properTarget : Proper target
  outside : isAncestorOrSelf source target = false
  there : Stands files source
  free : Free files target

theorem Validated.of_within {paths : List Str} (valid : Validated files source target)
    (within : Within paths files files')
    (apart : ∀ p ∈ paths, p ≠ [] ∧ Apart p source ∧ Apart p target) :
    Validated files' source target := by
  refine ⟨valid.properSource, valid.properTarget, valid.outside, ?_, ?_⟩
  · obtain ⟨q, member, below⟩ := valid.there
    refine ⟨q, ?_, below⟩
    obtain ⟨file, found⟩ := mem_iff.mp member
    refine mem_iff.mpr ⟨file, (within q fun p inPaths => ?_).trans found⟩
    by_contra inside
    have split := isAncestorOrSelf_comparable (by simpa using inside) below
    have apart := (apart p inPaths).2.1
    rw [apart.1, apart.2] at split
    simp at split
  · intro q member
    by_cases elsewhere : ∀ p ∈ paths, isAncestorOrSelf p q = false
    · obtain ⟨file, found⟩ := mem_iff.mp member
      exact valid.free q (mem_iff.mpr ⟨file, (within q elsewhere).symm.trans found⟩)
    · simp only [not_forall, Bool.not_eq_false] at elsewhere
      obtain ⟨p, inPaths, inside⟩ := elsewhere
      obtain ⟨nonempty, _, apart⟩ := apart p inPaths
      refine ⟨?_, ?_⟩
      · by_contra below
        have split := isAncestorOrSelf_comparable inside (by simpa using below)
        rw [apart.1, apart.2] at split
        simp at split
      · by_contra above
        have through := isAncestorOrSelf_trans nonempty inside (by simpa using above)
        rw [apart.1] at through
        cases through

/-! ## Hidden names -/

/-- The loop of `Remove` over the stamps, from `stamp` on. -/
def hiddenNameIn (files : Namespace) (path : Str) : Nat → Int → Str
  | 0, stamp => hiddenNameFor path stamp
  | fuel + 1, stamp =>
      if files.contains (hiddenNameFor path stamp) then files.hiddenNameIn path fuel (stamp + 1)
      else hiddenNameFor path stamp

/-- `hidden` in `Remove`; each round of the loop passes over a file. -/
def freshHiddenName (files : Namespace) (path : Str) (stamp : Int) : Str :=
  files.hiddenNameIn path files.size stamp

theorem hiddenNameIn_eq (fuel : Nat) (stamp : Int) :
    ∃ later, files.hiddenNameIn path fuel stamp = hiddenNameFor path later := by
  induction fuel generalizing stamp with
  | zero => exact ⟨stamp, rfl⟩
  | succ fuel ih =>
      unfold hiddenNameIn
      split
      · exact ih (stamp + 1)
      · exact ⟨stamp, rfl⟩

theorem freshHiddenName_not_mem (stamp : Int) : files.freshHiddenName path stamp ∉ files := by
  have taken : ∀ (fuel : Nat) (stamp : Int), files.hiddenNameIn path fuel stamp ∈ files →
      ∀ i ≤ fuel, hiddenNameFor path (stamp + i) ∈ files := by
    intro fuel
    induction fuel with
    | zero =>
        intro stamp member i bound
        obtain rfl := Nat.le_zero.mp bound
        rw [Int.ofNat_zero, Int.add_zero]
        exact member
    | succ fuel ih =>
        intro stamp member i bound
        unfold hiddenNameIn at member
        split at member
        · rename_i first
          cases i with
          | zero =>
              rw [Int.ofNat_zero, Int.add_zero]
              exact Std.ExtTreeMap.contains_iff_mem.mp first
          | succ i =>
              have later := ih (stamp + 1) member i (by omega)
              rw [show stamp + ((i + 1 : Nat) : Int) = stamp + 1 + i by omega]
              exact later
        · rename_i first
          exact absurd (Std.ExtTreeMap.contains_iff_mem.mpr member) first
  intro member
  -- one name more than there are files
  have nodup : ((List.range (files.size + 1)).map fun i : Nat =>
      hiddenNameFor path (stamp + i)).Nodup := by
    refine List.nodup_range.map fun i j same => ?_
    have stamps := hiddenNameFor_injective same
    omega
  have subset : ((List.range (files.size + 1)).map fun i : Nat =>
      hiddenNameFor path (stamp + i)) ⊆ files.keys := by
    intro name inNames
    obtain ⟨i, bound, rfl⟩ := List.mem_map.mp inNames
    have bound := List.mem_range.mp bound
    exact Std.ExtTreeMap.mem_keys.mpr (taken _ _ member i (by omega))
  have lengths := (List.subperm_of_subset nodup subset).length_le
  rw [List.length_map, List.length_range, Std.ExtTreeMap.length_keys] at lengths
  omega

/-- Where nothing stands below it, a hidden name is free. -/
theorem free_freshHiddenName (prefixFree : PrefixFree files) (proper : AllProper files)
    (valid : isValidPath path = true) (member : path ∈ files) {stamp : Int}
    (noDirectory : files.isDirectory (files.freshHiddenName path stamp) = false) :
    Proper (files.freshHiddenName path stamp) ∧ Free files (files.freshHiddenName path stamp) := by
  have notRoot := (proper path member).notRoot
  have absent : files.freshHiddenName path stamp ∉ files := freshHiddenName_not_mem stamp
  obtain ⟨later, isHidden⟩ : ∃ later, files.freshHiddenName path stamp = hiddenNameFor path later :=
    hiddenNameIn_eq files.size stamp
  rw [isHidden] at noDirectory absent ⊢
  have proper' : Proper (hiddenNameFor path later) := hiddenNameFor_proper
  refine ⟨proper', free_of_checks proper proper' ?_ ?_⟩
  · rw [noDirectory, Bool.or_false, ← Bool.not_eq_true, Std.ExtTreeMap.contains_iff_mem]
    exact absent
  · by_contra above
    obtain ⟨above, inFiles, below, different⟩ :=
      (hasFileAncestor_iff proper'.notRoot proper).mp (by simpa using above)
    rcases isAncestorOrSelf_hiddenNameFor valid notRoot (proper above inFiles).nonempty below with
      same | ⟨inPath, distinct⟩
    · exact different same
    · exact distinct (prefixFree above inFiles path member inPath)

end

end Namespace

end Gfs.Master
