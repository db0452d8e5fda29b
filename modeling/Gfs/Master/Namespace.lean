import Gfs.Common.Paths
import Gfs.Lib.Maps

/-!
# `master/namespace.cc`

The namespace maps the paths of files to their chunks, in the order of the strings; directories are
only what the paths have above them. The files at or below a path are found by their common prefix
from a lower bound on.
-/

namespace Gfs.Master
open Lib.Maps

structure FileMeta where
  chunks : List Handle := []
deriving DecidableEq

abbrev Namespace := Std.ExtTreeMap Str FileMeta

namespace Namespace

def withPrefix (files : Namespace) (start : Str) : List (Str × FileMeta) :=
  (lowerBound files start).takeWhile fun entry => start.isPrefixOf entry.1

def isDirectory (files : Namespace) (path : Str) : Bool :=
  path == ['/'] || match (lowerBound files (childPrefix path)).head? with
    | some entry => (childPrefix path).isPrefixOf entry.1
    | none => false

def hasFileAncestor (files : Namespace) (path : Str) : Bool :=
  (ancestorsOf path).any fun ancestor => ancestor != ['/'] && files.contains ancestor

def subtree (files : Namespace) (root : Str) (skipHidden : Bool) : List (Str × FileMeta) :=
  let self := match files[root]? with
    | some file => if !skipHidden || !isHiddenPath root then [(root, file)] else []
    | none => []
  self ++ (files.withPrefix (childPrefix root)).filter fun entry =>
    !(skipHidden && isHiddenPath entry.1)

/-- The path with `target` in the place of `source`. -/
def rebase (source target path : Str) : Str :=
  if path = source then target
  else childPrefix target ++ path.drop (childPrefix source).length

def renameSubtree (files : Namespace) (source target : Str) : Namespace :=
  let moved := files.subtree source false
  let remaining := (moved.map (·.1)).foldl (fun files path => files.erase path) files
  remaining.insertMany (moved.map fun (path, file) => (rebase source target path, file))

/-! ## Prefixes in the order of the strings -/

theorem compare_cons (c d : Char) (xs ys : Str) :
    compare (c :: xs) (d :: ys) = (compare c d).then (compare xs ys) := by
  rw [List.compare_eq_compareLex, List.compareLex_cons_cons]

theorem compare_of_prefix {start path : Str} (within : start <+: path) :
    compare path start ≠ .lt := by
  induction start generalizing path with
  | nil => cases path <;> simp
  | cons c start ih =>
      obtain ⟨rest, rfl⟩ := within
      rw [List.cons_append, compare_cons, Std.compare_self, Ordering.eq_then]
      exact ih (List.prefix_append _ _)

theorem prefix_of_between {start path between : Str} (within : start <+: path)
    (after : compare between start ≠ .lt) (before : compare between path = .lt) :
    start <+: between := by
  induction start generalizing path between with
  | nil => exact List.nil_prefix
  | cons c start ih =>
      obtain ⟨rest, rfl⟩ := within
      cases between with
      | nil => simp at after
      | cons d between =>
          rw [List.cons_append, compare_cons] at before
          rw [compare_cons] at after
          cases order : compare d c with
          | lt => simp [order] at after
          | gt => simp [order] at before
          | eq =>
              obtain rfl := Std.LawfulEqOrd.eq_of_compare order
              rw [order, Ordering.eq_then] at before after
              exact List.cons_prefix_cons.mpr ⟨rfl, ih (List.prefix_append _ _) after before⟩

section
variable {files : Namespace} {path root source target start : Str} {file : FileMeta}

theorem mem_withPrefix :
    (path, file) ∈ files.withPrefix start ↔ files[path]? = some file ∧ start <+: path := by
  have ordered := lowerBound_ordered files start
  have after : ∀ entry ∈ lowerBound files start, compare entry.1 start ≠ .lt :=
    fun _ member => (mem_lowerBound.mp member).2
  have listed : (path, file) ∈ lowerBound files start ∧ start <+: path ↔
      files[path]? = some file ∧ start <+: path := by
    rw [mem_lowerBound]
    exact ⟨fun h => ⟨h.1.1, h.2⟩, fun h => ⟨⟨h.1, compare_of_prefix h.2⟩, h.2⟩⟩
  rw [← listed, withPrefix]
  generalize lowerBound files start = entries at ordered after
  induction entries with
  | nil => simp
  | cons entry rest ih =>
      obtain ⟨above, ordered⟩ := List.pairwise_cons.mp ordered
      have later := ih ordered fun _ member => after _ (List.mem_cons_of_mem _ member)
      rw [List.takeWhile_cons]
      by_cases within : start.isPrefixOf entry.1 = true
      · rw [if_pos within, List.mem_cons, List.mem_cons]
        constructor
        · rintro (rfl | member)
          · exact ⟨.inl rfl, List.isPrefixOf_iff_prefix.mp within⟩
          · exact ⟨.inr (later.mp member).1, (later.mp member).2⟩
        · rintro ⟨rfl | member, found⟩
          · exact .inl rfl
          · exact .inr (later.mpr ⟨member, found⟩)
      · rw [if_neg within, List.mem_cons]
        refine iff_of_false (List.not_mem_nil) ?_
        rintro ⟨rfl | member, found⟩
        · exact within (List.isPrefixOf_iff_prefix.mpr found)
        · -- the order leaves nothing with the prefix behind an entry without it
          have between := prefix_of_between found (after entry List.mem_cons_self) (above _ member)
          exact within (List.isPrefixOf_iff_prefix.mpr between)

theorem isDirectory_iff (notRoot : path ≠ ['/']) :
    files.isDirectory path = true ↔
      ∃ below file, files[below]? = some file ∧ childPrefix path <+: below := by
  have found : (∃ below file, (below, file) ∈ files.withPrefix (childPrefix path)) ↔
      ∃ below file, files[below]? = some file ∧ childPrefix path <+: below := by
    simp only [mem_withPrefix]
  rw [← found, isDirectory, withPrefix]
  cases lowerBound files (childPrefix path) with
  | nil => simp [notRoot]
  | cons entry rest =>
      simp only [List.head?_cons, List.takeWhile_cons]
      by_cases within : (childPrefix path).isPrefixOf entry.1 = true
      · simp only [within, Bool.or_true, if_true, true_iff]
        exact ⟨entry.1, entry.2, List.mem_cons_self⟩
      · simp [within, notRoot]

theorem mem_subtree (notRoot : root ≠ ['/']) {skipHidden : Bool} :
    (path, file) ∈ files.subtree root skipHidden ↔ files[path]? = some file ∧
      isAncestorOrSelf root path = true ∧ (skipHidden = true → isHiddenPath path = false) := by
  have visible : (!(skipHidden && isHiddenPath path)) = true ↔
      (skipHidden = true → isHiddenPath path = false) := by
    cases skipHidden <;> simp
  rw [subtree, List.mem_append, List.mem_filter, mem_withPrefix, visible,
    isAncestorOrSelf_iff_childPrefix notRoot]
  constructor
  · rintro (self | ⟨⟨found, below⟩, shown⟩)
    · split at self
      case h_2 => cases self
      case h_1 same found =>
        split at self
        case isFalse => cases self
        case isTrue shown =>
          cases List.mem_singleton.mp self
          exact ⟨found, .inl rfl, visible.mp (by simpa using shown)⟩
    · exact ⟨found, .inr below, shown⟩
  · rintro ⟨found, rfl | below, shown⟩
    · left
      have now : (!skipHidden || !isHiddenPath root) = true := by simpa using visible.mpr shown
      rw [found]
      dsimp only
      rw [if_pos now]
      exact List.mem_singleton.mpr rfl
    · exact .inr ⟨⟨found, below⟩, shown⟩

theorem hasFileAncestor_iff (notRoot : path ≠ ['/']) (proper : ∀ q ∈ files, Proper q) :
    files.hasFileAncestor path = true ↔
      ∃ above ∈ files, isAncestorOrSelf above path = true ∧ above ≠ path := by
  rw [hasFileAncestor, List.any_eq_true]
  constructor
  · rintro ⟨above, member, both⟩
    simp only [Bool.and_eq_true, bne_iff_ne, Std.ExtTreeMap.contains_iff_mem] at both
    exact ⟨above, both.2, (mem_ancestorsOf (proper above both.2).nonempty notRoot).mp member⟩
  · rintro ⟨above, found, below⟩
    refine ⟨above, (mem_ancestorsOf (proper above found).nonempty notRoot).mpr below, ?_⟩
    simp [found, (proper above found).notRoot]

/-! ## Moving a subtree -/

theorem rebase_below (properTarget : target ≠ ['/']) (below : childPrefix source <+: path)
    (notRoot : source ≠ ['/']) :
    rebase source target path = target ++ '/' :: path.drop (childPrefix source).length := by
  rw [rebase, if_neg (ne_of_childPrefix notRoot below).symm, childPrefix_of_ne properTarget]
  simp

theorem isAncestorOrSelf_rebase :
    isAncestorOrSelf target (rebase source target path) = true := by
  unfold rebase
  split
  · exact isAncestorOrSelf_self
  · exact isAncestorOrSelf_of_childPrefix (List.prefix_append _ _)

theorem rebase_rebase (source' : source ≠ ['/']) (target' : target ≠ ['/'])
    (below : isAncestorOrSelf source path = true) :
    rebase target source (rebase source target path) = path := by
  rcases (isAncestorOrSelf_iff_childPrefix source').mp below with rfl | within
  · simp [rebase]
  · have moved := rebase_below target' within source'
    have inside : childPrefix target <+: rebase source target path := by
      rw [moved, childPrefix_of_ne target']
      exact ⟨path.drop (childPrefix source).length, by simp⟩
    rw [rebase_below source' inside target', moved]
    obtain ⟨rest, rfl⟩ := within
    rw [childPrefix_of_ne source', childPrefix_of_ne target']
    simp

theorem rebase_injective (source' : source ≠ ['/']) (target' : target ≠ ['/']) {path' : Str}
    (below : isAncestorOrSelf source path = true) (below' : isAncestorOrSelf source path' = true)
    (same : rebase source target path = rebase source target path') : path = path' := by
  rw [← rebase_rebase source' target' below, same, rebase_rebase source' target' below']

theorem nodup_subtree (notRoot : root ≠ ['/']) {skipHidden : Bool} :
    ((files.subtree root skipHidden).map (·.1)).Nodup := by
  have ordered : ((files.withPrefix (childPrefix root)).filter fun entry =>
      !(skipHidden && isHiddenPath entry.1)).Pairwise fun a b => compare a.1 b.1 = .lt :=
    (lowerBound_ordered files _).sublist (List.filter_sublist.trans (List.takeWhile_sublist _))
  have distinct := ordered.imp (S := fun a b => a.1 ≠ b.1) fun before same => by
    rw [same, Std.compare_self] at before
    cases before
  rw [subtree, List.map_append, List.nodup_append]
  refine ⟨?_, List.pairwise_map.mpr distinct, ?_⟩
  · split
    · split <;> simp
    · simp
  · intro self inSelf below inBelow same
    have isRoot : self = root := by
      split at inSelf
      · split at inSelf <;> simp at inSelf
        exact inSelf
      · cases inSelf
    obtain ⟨⟨_, file⟩, member, rfl⟩ := List.mem_map.mp inBelow
    have within := (mem_withPrefix.mp (List.mem_filter.mp member).1).2
    exact ne_of_childPrefix notRoot within (isRoot.symm.trans same)

/-- A file at or below the target is the one that was moved there; else it is the one that was
there, unless that was moved away. -/
theorem getElem?_renameSubtree (source' : source ≠ ['/']) (target' : target ≠ ['/']) :
    (files.renameSubtree source target)[path]? =
      (if isAncestorOrSelf target path = true then files[rebase target source path]? else none).or
        (if isAncestorOrSelf source path = true then none else files[path]?) := by
  have remaining : (((files.subtree source false).map (·.1)).foldl
      (fun files path => files.erase path) files)[path]? =
        if isAncestorOrSelf source path = true then none else files[path]? := by
    obtain ⟨gone, kept⟩ := getElem?_foldl_erase ((files.subtree source false).map (·.1)) files path
    by_cases below : isAncestorOrSelf source path = true
    · rw [if_pos below]
      by_cases member : path ∈ (files.subtree source false).map (·.1)
      · exact gone member
      · rw [kept member]
        obtain none | ⟨file, found⟩ := Option.eq_none_or_eq_some files[path]?
        · exact none
        · have listed : (path, file) ∈ files.subtree source false :=
            (mem_subtree source').mpr ⟨found, below, nofun⟩
          exact absurd (List.mem_map.mpr ⟨_, listed, rfl⟩) member
    · rw [if_neg below, kept]
      intro member
      obtain ⟨⟨_, file⟩, inSubtree, rfl⟩ := List.mem_map.mp member
      exact below ((mem_subtree source').mp inSubtree).2.1
  have distinct : ((files.subtree source false).map fun entry =>
      (rebase source target entry.1, entry.2)).Pairwise
        fun a b => ¬ compare a.1 b.1 = .eq := by
    have distinct : ((files.subtree source false).map (·.1)).Nodup := nodup_subtree source'
    have nodup := List.pairwise_map.mp distinct
    rw [List.pairwise_map]
    refine nodup.imp_of_mem fun {a b} inA inB different same => different ?_
    exact rebase_injective source' target' ((mem_subtree source').mp inA).2.1
      ((mem_subtree source').mp inB).2.1 (Std.LawfulEqOrd.eq_of_compare same)
  rw [renameSubtree]
  dsimp only
  obtain none | ⟨file, moved⟩ := Option.eq_none_or_eq_some
    (if isAncestorOrSelf target path = true then files[rebase target source path]? else none)
  · rw [none, Option.none_or, ← remaining]
    refine Std.ExtTreeMap.getElem?_insertMany_list_of_contains_eq_false ?_
    rw [← Bool.not_eq_true, List.contains_iff_mem]
    intro member
    obtain ⟨_, inMoved, rfl⟩ := List.mem_map.mp member
    obtain ⟨⟨old, file⟩, inSubtree, rfl⟩ := List.mem_map.mp inMoved
    obtain ⟨found, below, _⟩ := (mem_subtree source').mp inSubtree
    rw [if_pos isAncestorOrSelf_rebase, rebase_rebase source' target' below, found] at none
    cases none
  · rw [moved, Option.some_or]
    split at moved
    case isFalse => cases moved
    case isTrue above =>
      refine Std.ExtTreeMap.getElem?_insertMany_list_of_mem Std.compare_self distinct ?_
      refine List.mem_map.mpr ⟨(rebase target source path, file), ?_, ?_⟩
      · exact (mem_subtree source').mpr ⟨moved, isAncestorOrSelf_rebase, nofun⟩
      · rw [rebase_rebase target' source' above]

end

end Namespace

end Gfs.Master
