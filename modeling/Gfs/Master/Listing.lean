import Gfs.Master.Subtrees

/-!
# `Namespace::List`

A listing leaves out a directory name that is the last one it has given. That is enough, because the
files of one directory stand together in the order of the strings.
-/

namespace Gfs.Master
open Lib.Maps

structure ListEntry where
  name : Str
  isDirectory : Bool
deriving DecidableEq

namespace Namespace

/-- The loop of `List` over the paths behind the prefix of the directory. -/
def listLoop (includeHidden : Bool) (start : Nat) : List Str → Str → List ListEntry
  | [], _ => []
  | path :: paths, lastDirectory =>
      let rest := path.drop start
      if '/' ∉ rest then
        if !includeHidden && isHiddenPath path then listLoop includeHidden start paths lastDirectory
        else ⟨rest, false⟩ :: listLoop includeHidden start paths lastDirectory
      else
        let name := rest.takeWhile (· ≠ '/')
        if name = lastDirectory then listLoop includeHidden start paths lastDirectory
        else ⟨name, true⟩ :: listLoop includeHidden start paths name

def list (files : Namespace) (directory : Str) (includeHidden : Bool) : List ListEntry :=
  listLoop includeHidden (childPrefix directory).length
    ((files.withPrefix (childPrefix directory)).map (·.1)) []

section
variable {includeHidden : Bool} {start : Nat} {paths : List Str} {last name front : Str}

def InDirectory (start : Nat) (name path : Str) : Prop :=
  '/' ∈ path.drop start ∧ (path.drop start).takeWhile (· ≠ '/') = name

theorem inDirectory_iff {path rest : Str} (split : path = front ++ rest) (noSlash : '/' ∉ name) :
    InDirectory front.length name path ↔ front ++ name ++ ['/'] <+: path := by
  subst split
  rw [InDirectory, List.drop_left]
  constructor
  · rintro ⟨slash, same⟩
    have whole := List.takeWhile_append_dropWhile (p := (· ≠ '/')) (l := rest)
    have here : rest.dropWhile (· ≠ '/') ≠ [] := by
      intro none
      have all := List.dropWhile_eq_nil_iff.mp none '/' slash
      simp at all
    obtain ⟨c, later, behind⟩ := List.exists_cons_of_ne_nil here
    have head := List.head?_dropWhile_not (· ≠ '/') rest
    rw [behind] at head
    obtain rfl : c = '/' := by simpa using head
    rw [same, behind] at whole
    exact ⟨later, by rw [← whole]; simp⟩
  · rintro ⟨later, eq⟩
    have eq : rest = name ++ '/' :: later := by
      simp only [List.append_assoc, List.append_cancel_left_eq] at eq
      simpa using eq.symm
    rw [eq]
    refine ⟨by simp, ?_⟩
    rw [List.takeWhile_append_of_pos (fun c member => by
      simpa using fun same : c = '/' => noSlash (same ▸ member))]
    simp

theorem mem_listLoop_file :
    ⟨name, false⟩ ∈ listLoop includeHidden start paths last ↔ ∃ path ∈ paths,
      path.drop start = name ∧ '/' ∉ name ∧ (isHiddenPath path = false ∨ includeHidden = true) := by
  induction paths generalizing last with
  | nil => simp [listLoop]
  | cons path paths ih =>
      rw [listLoop, List.exists_mem_cons_iff]
      dsimp only
      split
      case isTrue noSlash =>
        split
        case isTrue skipped =>
          rw [ih, or_iff_right]
          rintro ⟨-, -, hidden⟩
          simp_all
        case isFalse shown =>
          have visible : isHiddenPath path = false ∨ includeHidden = true := by
            cases includeHidden <;> simp_all
          rw [List.mem_cons, ih]
          refine or_congr_left ⟨fun same => ?_, fun here => ?_⟩
          · cases same
            exact ⟨rfl, noSlash, visible⟩
          · rw [here.1]
      case isFalse slash =>
        have not : ¬ (path.drop start = name ∧ '/' ∉ name ∧
            (isHiddenPath path = false ∨ includeHidden = true)) :=
          fun here => slash (by rw [here.1]; exact here.2.1)
        rw [or_iff_right not, ← ih]
        split
        · rfl
        · rw [List.mem_cons, or_iff_right (fun same => by cases same)]
          exact ih.trans ih.symm

theorem exists_of_mem_listLoop (listed : ⟨name, true⟩ ∈ listLoop includeHidden start paths last) :
    ∃ path ∈ paths, InDirectory start name path := by
  induction paths generalizing last with
  | nil => cases listed
  | cons path paths ih =>
      rw [listLoop] at listed
      dsimp only at listed
      have later : ∀ {last : Str}, ⟨name, true⟩ ∈ listLoop includeHidden start paths last →
          ∃ path' ∈ path :: paths, InDirectory start name path' := by
        intro last listed
        obtain ⟨path', member, inside⟩ := ih listed
        exact ⟨path', List.mem_cons_of_mem _ member, inside⟩
      split at listed
      · split at listed
        · exact later listed
        · rcases List.mem_cons.mp listed with same | listed
          · cases same
          · exact later listed
      case isFalse slash =>
        split at listed
        · exact later listed
        · rcases List.mem_cons.mp listed with same | listed
          · cases same
            exact ⟨path, List.mem_cons_self, not_not.mp slash, rfl⟩
          · exact later listed

theorem mem_listLoop_of_inDirectory {path : Str} (member : path ∈ paths)
    (inside : InDirectory start name path) :
    ⟨name, true⟩ ∈ listLoop includeHidden start paths last ∨ name = last := by
  induction paths generalizing last with
  | nil => cases member
  | cons first paths ih =>
      rw [listLoop]
      dsimp only
      rcases List.mem_cons.mp member with rfl | later
      · rw [if_neg (not_not.mpr inside.1), inside.2]
        split
        case isTrue same => exact .inr same
        case isFalse => exact .inl List.mem_cons_self
      · split
        · split
          · exact ih later
          · exact (ih later).imp_left (List.mem_cons_of_mem _)
        · split
          · exact ih later
          · have rest : ⟨name, true⟩ ∈ listLoop includeHidden start paths
                ((first.drop start).takeWhile (· ≠ '/')) ∨
                name = (first.drop start).takeWhile (· ≠ '/') := ih later
            rcases rest with listed | same
            · exact .inl (List.mem_cons_of_mem _ listed)
            · exact .inl (same ▸ List.mem_cons_self)

theorem InDirectory.between {p q r : Str} (within : ∀ path ∈ [p, q, r], front <+: path)
    (noSlash : '/' ∉ name) (first : InDirectory front.length name p)
    (third : InDirectory front.length name r) (before : compare p q = .lt)
    (after : compare q r = .lt) : InDirectory front.length name q := by
  have split : ∀ path ∈ [p, q, r], ∃ rest, path = front ++ rest := fun path member => by
    obtain ⟨rest, eq⟩ := within path member
    exact ⟨rest, eq.symm⟩
  obtain ⟨_, eqP⟩ := split p (by simp)
  obtain ⟨_, eqQ⟩ := split q (by simp)
  obtain ⟨_, eqR⟩ := split r (by simp)
  rw [inDirectory_iff eqP noSlash] at first
  rw [inDirectory_iff eqR noSlash] at third
  rw [inDirectory_iff eqQ noSlash]
  refine prefix_of_between third (fun low => ?_) after
  exact compare_of_prefix first (Std.TransCmp.lt_trans before low)

theorem name_noSlash {path : Str} (inside : InDirectory start name path) : '/' ∉ name := by
  intro member
  rw [← inside.2] at member
  simpa using List.mem_takeWhile_imp member

/-- Behind a path of the last directory that directory is not listed again. -/
theorem last_not_listed {anchor : Str} (within : ∀ path ∈ anchor :: paths, front <+: path)
    (ordered : (anchor :: paths).Pairwise fun p q => compare p q = .lt)
    (inside : InDirectory front.length last anchor) :
    ⟨last, true⟩ ∉ listLoop includeHidden front.length paths last := by
  induction paths generalizing anchor with
  | nil => exact List.not_mem_nil
  | cons path paths ih =>
      have noSlash := name_noSlash inside
      obtain ⟨above, rest⟩ := List.pairwise_cons.mp ordered
      by_cases here : InDirectory front.length last path
      · rw [listLoop]
        dsimp only
        rw [if_neg (not_not.mpr here.1), if_pos here.2]
        exact ih (fun q member => within q (List.mem_cons_of_mem _ member)) rest here
      · have never : ∀ q ∈ path :: paths, ¬ InDirectory front.length last q := by
          intro q member found
          rcases List.mem_cons.mp member with rfl | later
          · exact here found
          · refine here (inside.between ?_ noSlash found (above path List.mem_cons_self)
              ((List.pairwise_cons.mp rest).1 q later))
            intro p member
            rcases List.mem_cons.mp member with rfl | member
            · exact within p List.mem_cons_self
            rcases List.mem_cons.mp member with rfl | member
            · exact within p (by simp)
            · rw [List.mem_singleton.mp member]
              exact within q (by simp [later])
        intro listed
        obtain ⟨q, member, found⟩ := exists_of_mem_listLoop listed
        exact never q member found

theorem nodup_listLoop (within : ∀ path ∈ paths, front <+: path)
    (ordered : paths.Pairwise fun p q => compare p q = .lt)
    (apart : ∀ p ∈ paths, ∀ q ∈ paths, ¬ InDirectory front.length (p.drop front.length) q) :
    ((listLoop includeHidden front.length paths last).map (·.name)).Nodup := by
  induction paths generalizing last with
  | nil => exact List.nodup_nil
  | cons path paths ih =>
      obtain ⟨above, rest⟩ := List.pairwise_cons.mp ordered
      have later : ∀ last, ((listLoop includeHidden front.length paths last).map (·.name)).Nodup :=
        fun last => ih (fun q member => within q (List.mem_cons_of_mem _ member)) rest
          fun p inP q inQ => apart p (List.mem_cons_of_mem _ inP) q (List.mem_cons_of_mem _ inQ)
      have fresh : ∀ {name last : Str},
          ⟨name, false⟩ ∉ listLoop includeHidden front.length paths last →
          ⟨name, true⟩ ∉ listLoop includeHidden front.length paths last →
          name ∉ (listLoop includeHidden front.length paths last).map (·.name) := by
        intro name last noFile noDirectory member
        obtain ⟨⟨_, flag⟩, listed, rfl⟩ := List.mem_map.mp member
        cases flag
        · exact noFile listed
        · exact noDirectory listed
      rw [listLoop]
      dsimp only
      split
      case isTrue noSlash =>
        split
        · exact later last
        · refine List.nodup_cons.mpr ⟨fresh (fun file => ?_) (fun directory => ?_), later last⟩
          · obtain ⟨other, member, same, -⟩ := mem_listLoop_file.mp file
            obtain ⟨tail, rfl⟩ := within path List.mem_cons_self
            obtain ⟨tail', rfl⟩ := within other (List.mem_cons_of_mem _ member)
            rw [List.drop_left, List.drop_left] at same
            have order := above _ member
            rw [same, Std.compare_self] at order
            cases order
          · obtain ⟨other, member, inside⟩ := exists_of_mem_listLoop directory
            exact apart path List.mem_cons_self other (List.mem_cons_of_mem _ member) inside
      case isFalse slash =>
        split
        · exact later last
        · have inside :
              InDirectory front.length ((path.drop front.length).takeWhile (· ≠ '/')) path :=
            ⟨not_not.mp slash, rfl⟩
          refine List.nodup_cons.mpr ⟨fresh (fun file => ?_) ?_, later _⟩
          · obtain ⟨other, member, same, -⟩ := mem_listLoop_file.mp file
            refine apart other (List.mem_cons_of_mem _ member) path List.mem_cons_self ?_
            rw [same]
            exact inside
          · exact last_not_listed within ordered inside

end

theorem not_isValidPath_empty {front rest : Str} :
    isValidPath (front ++ '/' :: '/' :: rest) = false := by
  cases front with
  | nil => exact not_isValidPath_slashes
  | cons c front =>
      have split : (front ++ '/' :: '/' :: rest).splitOn '/' =
          front.splitOn '/' ++ [] :: rest.splitOn '/' := by
        have slash : ('/' == '/') = true := rfl
        have first := @List.splitOnP_append_cons Char (· == '/') front ('/' :: rest) '/' slash
        have second := @List.splitOnP_append_cons Char (· == '/') [] rest '/' slash
        rw [List.nil_append] at second
        rw [List.splitOn, first, second]
        simp [List.splitOn]
      cases valid : isValidPath (c :: front ++ '/' :: '/' :: rest) with
      | false => rfl
      | true =>
          obtain ⟨_, same⟩ := isValidPath_cons valid
          obtain ⟨rfl, -⟩ := List.cons.inj same
          rw [List.cons_append] at valid
          simp [isValidPath, split, isValidComponent] at valid

/-- `List` gives each name of the directory once: the files in it, hidden ones only on request, and
the directories that have a file below them. -/
theorem list_exact {files : Namespace} (prefixFree : PrefixFree files) (directory : Str)
    (includeHidden : Bool) :
    ((files.list directory includeHidden).map (·.name)).Nodup ∧
    (∀ entry ∈ files.list directory includeHidden, '/' ∉ entry.name) ∧
    (∀ name : Str, '/' ∉ name →
      (⟨name, false⟩ ∈ files.list directory includeHidden ↔
        childPrefix directory ++ name ∈ files ∧
          (isHiddenPath (childPrefix directory ++ name) = false ∨ includeHidden = true))) ∧
    (∀ name : Str, '/' ∉ name → name ≠ [] →
      (⟨name, true⟩ ∈ files.list directory includeHidden ↔
        ∃ path ∈ files, isAncestorOrSelf (childPrefix directory ++ name) path = true ∧
          path ≠ childPrefix directory ++ name) ∧
      (files.isDirectory (childPrefix directory ++ name) = true ↔
        ⟨name, true⟩ ∈ files.list directory includeHidden)) ∧
    ((∀ path ∈ files, isValidPath path = true) →
      ⟨[], true⟩ ∉ files.list directory includeHidden) := by
  rw [list]
  generalize front' : childPrefix directory = front
  have listed : ∀ path : Str, path ∈ (files.withPrefix front).map (·.1) ↔
      path ∈ files ∧ front <+: path := by
    intro path
    rw [List.mem_map, mem_iff]
    constructor
    · rintro ⟨⟨_, file⟩, member, rfl⟩
      obtain ⟨found, within⟩ := mem_withPrefix.mp member
      exact ⟨⟨file, found⟩, within⟩
    · rintro ⟨⟨file, found⟩, within⟩
      exact ⟨(path, file), mem_withPrefix.mpr ⟨found, within⟩, rfl⟩
  have ordered : ((files.withPrefix front).map (·.1)).Pairwise fun p q => compare p q = .lt := by
    rw [List.pairwise_map]
    exact (lowerBound_ordered files front).sublist (List.takeWhile_sublist _)
  generalize (files.withPrefix front).map (·.1) = paths at listed ordered
  have apart : ∀ p ∈ paths, ∀ q ∈ paths,
      ¬ InDirectory front.length (p.drop front.length) q := by
    intro p inP q inQ inside
    obtain ⟨fileP, tail, rfl⟩ := (listed p).mp inP
    obtain ⟨fileQ, rest, split⟩ := (listed q).mp inQ
    have noSlash := name_noSlash inside
    rw [List.drop_left] at inside noSlash
    have below := (inDirectory_iff split.symm noSlash).mp inside
    have same := prefixFree _ fileP _ fileQ (isAncestorOrSelf_iff.mpr (.inr (.inr below)))
    have longer := below.length_le
    rw [← same] at longer
    simp at longer
  have named : ∀ name : Str, '/' ∉ name →
      ⟨name, true⟩ ∈ listLoop includeHidden front.length paths [] →
      ∃ path ∈ files, front ++ name ++ ['/'] <+: path := by
    intro name noSlash directory
    obtain ⟨path, member, inside⟩ := exists_of_mem_listLoop directory
    obtain ⟨file, rest, split⟩ := (listed path).mp member
    exact ⟨path, file, (inDirectory_iff split.symm noSlash).mp inside⟩
  have within : ∀ path ∈ paths, front <+: path := fun path member => ((listed path).mp member).2
  refine ⟨nodup_listLoop within ordered apart, ?_, ?_, ?_, ?_⟩
  · rintro ⟨name, flag⟩ member
    cases flag with
    | false =>
        obtain ⟨_, _, _, noSlash, _⟩ := mem_listLoop_file.mp member
        exact noSlash
    | true =>
        obtain ⟨_, _, inside⟩ := exists_of_mem_listLoop member
        exact name_noSlash inside
  · intro name noSlash
    rw [mem_listLoop_file]
    constructor
    · rintro ⟨path, member, rfl, -, shown⟩
      obtain ⟨file, tail, rfl⟩ := (listed path).mp member
      rw [List.drop_left]
      exact ⟨file, shown⟩
    · rintro ⟨file, shown⟩
      exact ⟨front ++ name, (listed _).mpr ⟨file, List.prefix_append _ _⟩, List.drop_left, noSlash,
        shown⟩
  · intro name noSlash nonempty
    have notRoot : front ++ name ≠ ['/'] := by
      obtain ⟨before, slash⟩ := childPrefix_slash (p := directory)
      intro root
      rw [← front', slash, List.append_assoc] at root
      have lengths := congrArg List.length root
      have positive : 0 < name.length := List.length_pos_iff.mpr nonempty
      simp only [List.length_append, List.length_cons, List.length_nil] at lengths
      omega
    have child : childPrefix (front ++ name) = front ++ name ++ ['/'] := childPrefix_of_ne notRoot
    have listedHere : (⟨name, true⟩ ∈ listLoop includeHidden front.length paths []) ↔
        ∃ path ∈ files, front ++ name ++ ['/'] <+: path := by
      refine ⟨named name noSlash, ?_⟩
      rintro ⟨path, file, below⟩
      have within : front <+: path := by
        rw [List.append_assoc] at below
        exact (List.prefix_append _ _).trans below
      obtain ⟨rest, split⟩ := within
      have inside := (inDirectory_iff split.symm noSlash).mpr below
      have member := (listed path).mpr ⟨file, rest, split⟩
      exact (mem_listLoop_of_inDirectory member inside).resolve_right nonempty
    refine ⟨listedHere.trans ?_, ?_⟩
    · constructor
      · rintro ⟨path, file, below⟩
        refine ⟨path, file, isAncestorOrSelf_iff.mpr (.inr (.inr below)), ?_⟩
        exact (ne_of_childPrefix notRoot (child ▸ below)).symm
      · rintro ⟨path, file, above, different⟩
        rcases (isAncestorOrSelf_iff_childPrefix notRoot).mp above with same | below
        · exact absurd same.symm different
        · exact ⟨path, file, child ▸ below⟩
    · rw [listedHere, isDirectory_iff notRoot, child]
      constructor
      · rintro ⟨path, file, found, below⟩
        exact ⟨path, mem_iff.mpr ⟨file, found⟩, below⟩
      · rintro ⟨path, file, below⟩
        obtain ⟨file, found⟩ := mem_iff.mp file
        exact ⟨path, file, found, below⟩
  · intro valid listedEmpty
    obtain ⟨path, file, rest, split⟩ := named [] List.not_mem_nil listedEmpty
    obtain ⟨before, slash⟩ := childPrefix_slash (p := directory)
    have bad : isValidPath path = false := by
      rw [← split, ← front', slash]
      simpa using not_isValidPath_empty
    rw [valid path file] at bad
    cases bad

/-- The directory `/a` and the file `/ab` beside it. -/
theorem list_exact_siblings :
    ((siblings.list ['/'] false).map (·.name)).Nodup ∧
      (⟨['a'], true⟩ ∈ siblings.list ['/'] false ↔
        ∃ path ∈ siblings, isAncestorOrSelf ['/', 'a'] path = true ∧ path ≠ ['/', 'a']) := by
  have prefixFree : PrefixFree siblings := by
    intro p inP q inQ
    simp only [siblings, Std.ExtTreeMap.mem_insert, Std.LawfulEqOrd.compare_eq_iff_eq,
      Std.ExtTreeMap.not_mem_empty, or_false] at inP inQ
    rcases inP with rfl | rfl <;> rcases inQ with rfl | rfl <;> decide
  obtain ⟨once, -, -, directories, -⟩ := list_exact prefixFree ['/'] false
  exact ⟨once, (directories ['a'] (by decide) (by decide)).1⟩

end Namespace

end Gfs.Master
