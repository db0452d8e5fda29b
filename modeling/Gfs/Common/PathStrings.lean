import Gfs.Common.Paths
import Mathlib.Data.List.Basic
import Mathlib.Data.List.Induction
import Mathlib.Logic.Function.Iterate

/-!
# `common/paths.cc` with the indices of the source

The string loops as they are written, on `std::string_view`, and the tree of lists of components on
which all of them agree for the valid paths.
-/

namespace Gfs.PathStrings

/-! ## `std::string_view` -/

/-- `none` is `npos`. -/
def find (text : Str) (c : Char) (start : Nat) : Option Nat :=
  ((text.drop start).findIdx? (· = c)).map (start + ·)

def rfind (text : Str) (c : Char) : Option Nat :=
  (text.reverse.findIdx? (· = c)).map (text.length - 1 - ·)

def substr (text : Str) (pos count : Nat) : Str := (text.drop pos).take count

section
variable {front back : Str} {c : Char}

theorem find_first (free : c ∉ front) : find (front ++ c :: back) c 0 = some front.length := by
  have none_before : front.findIdx? (· = c) = none := by
    rw [List.findIdx?_eq_none_iff]
    intro x member
    apply decide_eq_false
    rintro rfl
    exact free member
  simp [find, List.findIdx?_append, List.findIdx?_cons, none_before]

theorem rfind_last (free : c ∉ back) : rfind (front ++ c :: back) c = some front.length := by
  have none_after : back.reverse.findIdx? (· = c) = none := by
    rw [List.findIdx?_eq_none_iff]
    intro x member
    apply decide_eq_false
    rintro rfl
    exact free (List.mem_reverse.mp member)
  have back_first : (front ++ c :: back).reverse = back.reverse ++ c :: front.reverse := by simp
  rw [rfind, back_first, List.findIdx?_append, none_after, Option.none_or, List.findIdx?_cons]
  simp only [decide_true, ↓reduceIte, Option.map_some, List.length_append, List.length_reverse,
    List.length_cons, Option.some.injEq]
  omega

theorem rfind_none (free : c ∉ front) : rfind front c = none := by
  rw [rfind, Option.map_eq_none_iff, List.findIdx?_eq_none_iff]
  intro x member
  apply decide_eq_false
  rintro rfl
  exact free (List.mem_reverse.mp member)

theorem find_drop {text : Str} {start : Nat} :
    find text c start = (find (text.drop start) c 0).map (start + ·) := by
  simp [find]

end

/-! ## The functions -/

def isComponent (component : Str) : Bool :=
  !(component.isEmpty || component == ['.'] || component == ['.', '.'])

/-- The loop of `IsValidPath` from `start` on. -/
def componentLoop (path : Str) (start : Nat) : Bool :=
  if start ≤ path.length then
    let stop := (find path '/' start).getD path.length
    if isComponent (substr path start (stop - start)) then componentLoop path (stop + 1) else false
  else true
termination_by path.length + 1 - start
decreasing_by
  have later : start ≤ (find path '/' start).getD path.length := by
    unfold find
    cases (path.drop start).findIdx? (· = '/') with
    | none => assumption
    | some k => exact Nat.le_add_right _ _
  omega

def isValidPath (path : Str) : Bool :=
  if path.head? ≠ some '/' then false
  else if path = ['/'] then true
  else if path.getLast? = some '/' then false
  else componentLoop path 1

def parentOf (path : Str) : Str :=
  if path = ['/'] then ['/']
  else match rfind path '/' with
    | some 0 => ['/']
    | some slash => substr path 0 slash
    | none => path

/-- `npos + 1` is zero. -/
def baseName (path : Str) : Str := path.drop ((rfind path '/').elim 0 (· + 1))

def ancestorsOf (path : Str) : List Str :=
  if path = ['/'] then []
  else (List.range' 1 (path.length - 1)).foldl
    (fun out i => if path[i]? = some '/' then out ++ [substr path 0 i] else out) [['/']]

def isAncestorOrSelf (ancestor path : Str) : Bool :=
  if ancestor = path then true
  else if ancestor = ['/'] then true
  else decide (ancestor.length < path.length) && substr path 0 ancestor.length == ancestor &&
    path[ancestor.length]? == some '/'

def childPrefix (directory : Str) : Str := if directory = ['/'] then ['/'] else directory ++ ['/']

def isHiddenPath (path : Str) : Bool :=
  let name := baseName path
  decide (hiddenPrefix.length < name.length) && substr name 0 hiddenPrefix.length == hiddenPrefix

def hiddenNameFor (path : Str) (unixSeconds : Int) : Str :=
  childPrefix (parentOf path) ++ hiddenPrefix ++ decimal unixSeconds ++ ['.'] ++ baseName path

def parseHiddenName (path : Str) : Option (Int × Str) :=
  if isHiddenPath path then
    let rest := (baseName path).drop hiddenPrefix.length
    match find rest '.' 0 with
    | none => none
    | some dot =>
        if dot = 0 ∨ rest.length ≤ dot + 1 then none
        else (parseInt64 (substr rest 0 dot)).map fun stamp =>
          (stamp, childPrefix (parentOf path) ++ rest.drop (dot + 1))
  else none

/-! ## The tree of components -/

/-- Not empty, without a slash, neither `.` nor `..`. -/
structure Component (name : Str) : Prop where
  nonempty : name ≠ []
  noSlash : '/' ∉ name
  notHere : name ≠ ['.']
  notAbove : name ≠ ['.', '.']

def joined (components : List Str) : Str := components.flatMap ('/' :: ·)

def pathOf (components : List Str) : Str :=
  if components = [] then ['/'] else joined components

section
variable {p d name text : Str} {components above : List Str}

theorem joined_cons {component : Str} :
    joined (component :: components) = '/' :: component ++ joined components := rfl

theorem joined_eq (nonempty : components ≠ []) :
    joined components = '/' :: List.intercalate ['/'] components := by
  induction components with
  | nil => exact absurd rfl nonempty
  | cons first rest ih =>
      cases rest with
      | nil => simp [joined]
      | cons next rest =>
          rw [joined_cons, ih (List.cons_ne_nil _ _), List.intercalate_cons_cons]
          simp

theorem not_mem_splitOn {component : Str} (part : component ∈ text.splitOn '/') :
    '/' ∉ component := by
  induction text generalizing component with
  | nil => simp_all
  | cons c text ih =>
      rw [List.splitOn_cons_eq_if_modifyHead] at part
      split at part
      · rcases List.mem_cons.mp part with rfl | part
        · simp
        · exact ih part
      · rename_i other
        obtain ⟨first, rest, split⟩ := List.exists_cons_of_ne_nil (List.splitOn_ne_nil '/' text)
        rw [split, List.modifyHead_cons] at part
        have free : ∀ component ∈ first :: rest, '/' ∉ component :=
          fun component member => ih (split ▸ member)
        rcases List.mem_cons.mp part with rfl | part
        · rintro (_ | ⟨_, slash⟩)
          · exact other (by simp)
          · exact free first List.mem_cons_self slash
        · exact free component (List.mem_cons_of_mem _ part)

theorem isValidComponent_iff (noSlash : '/' ∉ name) :
    isValidComponent name = true ↔ Component name := by
  constructor
  · intro is
    simp only [isValidComponent, Bool.and_eq_true, Bool.not_eq_true', List.isEmpty_eq_false_iff,
      decide_eq_true_eq] at is
    exact ⟨is.1.1, noSlash, is.1.2, is.2⟩
  · rintro ⟨nonempty, -, notHere, notAbove⟩
    simp [isValidComponent, nonempty, notHere, notAbove]

theorem isComponent_eq : isComponent name = isValidComponent name := by
  unfold isComponent isValidComponent
  rw [Bool.eq_iff_iff]
  simp [and_assoc]

theorem componentLoop_eq (path : Str) (start : Nat) (inside : start ≤ path.length) :
    componentLoop path start = ((path.drop start).splitOn '/').all isValidComponent := by
  rw [componentLoop, if_pos inside, find_drop]
  by_cases slash : '/' ∈ path.drop start
  · obtain ⟨front, back, split, free⟩ := List.eq_append_cons_of_mem slash
    have length : path.length = start + (front.length + (back.length + 1)) := by
      have both := congrArg List.length split
      rw [List.length_drop, List.length_append, List.length_cons] at both
      omega
    have behind : path.drop (start + front.length + 1) = back := by
      rw [Nat.add_assoc, ← List.drop_drop, split]
      simp
    have here : substr path start front.length = front := by
      rw [substr, split]
      simp
    have ih := componentLoop_eq path (start + front.length + 1) (by omega)
    rw [split, find_first free, List.splitOn_append_cons_self_of_not_mem free, List.all_cons]
    simp only [Option.map_some, Option.getD_some, Nat.add_sub_cancel_left, here, isComponent_eq]
    rw [ih, behind]
    cases isValidComponent front <;> rfl
  · have none_left : find (path.drop start) '/' 0 = none := by
      rw [find, Option.map_eq_none_iff, List.findIdx?_eq_none_iff]
      intro x member
      apply decide_eq_false
      rintro rfl
      exact slash (by simpa using member)
    have here : substr path start (path.length - start) = path.drop start := by
      rw [substr, ← List.length_drop]
      exact List.take_length
    have ended : componentLoop path (path.length + 1) = true := by
      rw [componentLoop, if_neg (Nat.not_succ_le_self _)]
    rw [none_left, List.splitOn_eq_singleton slash, List.all_cons, List.all_nil, Bool.and_true]
    simp only [Option.map_none, Option.getD_none, here, ended, isComponent_eq]
    cases isValidComponent (path.drop start) <;> rfl
termination_by path.length + 1 - start

theorem all_splitOn_iff : (text.splitOn '/').all isValidComponent = true ↔
    ∃ components, components ≠ [] ∧ '/' :: text = joined components ∧
      ∀ c ∈ components, Component c := by
  rw [List.all_eq_true]
  constructor
  · intro all
    refine ⟨text.splitOn '/', List.splitOn_ne_nil _ _, ?_, ?_⟩
    · rw [joined_eq (List.splitOn_ne_nil _ _), List.intercalate_splitOn]
    · exact fun c part => (isValidComponent_iff (not_mem_splitOn part)).mp (all c part)
  · rintro ⟨components, nonempty, same, all⟩
    rw [joined_eq nonempty] at same
    rw [(List.cons.inj same).2, List.splitOn_intercalate '/' (fun c member => (all c member).noSlash)
      nonempty]
    exact fun c member => (isValidComponent_iff (all c member).noSlash).mpr (all c member)

theorem joined_concat {component : Str} :
    joined (components ++ [component]) = joined components ++ '/' :: component := by
  simp [joined]

theorem getLast?_slash (last : ('/' :: text).getLast? = some '/') (nonempty : text ≠ []) :
    (text.splitOn '/').all isValidComponent = false := by
  obtain ⟨init, c, rfl⟩ := (List.eq_nil_or_concat text).resolve_left nonempty
  rw [List.concat_eq_append, ← List.cons_append, List.getLast?_concat] at last
  cases Option.some.inj last
  rw [List.concat_eq_append, List.splitOn_append_cons_self, List.all_append]
  simp [isValidComponent]

theorem isValidPath_eq : isValidPath p = Gfs.isValidPath p := by
  unfold isValidPath Gfs.isValidPath
  cases p with
  | nil => rfl
  | cons c rest =>
      by_cases slash : c = '/'
      · subst slash
        rw [if_neg (by simp)]
        by_cases root : rest = []
        · subst root
          rfl
        · have loop := componentLoop_eq ('/' :: rest) 1 (by simp)
          simp only [List.drop_succ_cons, List.drop_zero] at loop
          rw [if_neg (by simpa using root), loop]
          simp only [List.isEmpty_eq_false_iff.mpr root, Bool.false_or]
          split
          · rename_i last
            exact (getLast?_slash last root).symm
          · rfl
      · rw [if_pos (by simpa using slash)]
        split
        · rename_i same
          exact absurd (List.cons.inj same).1 slash
        · rfl

/-- The valid paths are the nodes of the tree. -/
theorem isValidPath_iff : isValidPath p = true ↔
    ∃ components, p = pathOf components ∧ ∀ c ∈ components, Component c := by
  rw [isValidPath_eq]
  constructor
  · intro valid
    obtain ⟨rest, rfl⟩ := isValidPath_cons valid
    by_cases root : rest = []
    · subst root
      exact ⟨[], rfl, nofun⟩
    · have parts : (rest.splitOn '/').all isValidComponent = true := by
        simpa only [Gfs.isValidPath, List.isEmpty_eq_false_iff.mpr root, Bool.false_or] using valid
      obtain ⟨components, nonempty, same, all⟩ := all_splitOn_iff.mp parts
      exact ⟨components, by rw [pathOf, if_neg nonempty, same], all⟩
  · rintro ⟨components, rfl, all⟩
    by_cases empty : components = []
    · subst empty
      rfl
    · obtain ⟨text, same⟩ : ∃ text, joined components = '/' :: text := ⟨_, joined_eq empty⟩
      have parts := all_splitOn_iff.mpr ⟨components, empty, same.symm, all⟩
      rw [pathOf, if_neg empty, same]
      simp [Gfs.isValidPath, parts]

/-! ## Parents and names -/

theorem pathOf_ne_nil : pathOf components ≠ [] := by
  cases components <;> simp [pathOf, joined]

theorem pathOf_eq_root (all : ∀ c ∈ components, Component c) :
    pathOf components = ['/'] ↔ components = [] := by
  constructor
  · intro root
    cases components with
    | nil => rfl
    | cons first rest =>
        have is := all first List.mem_cons_self
        rw [pathOf, if_neg (List.cons_ne_nil _ _), joined_cons, List.cons_append] at root
        exact absurd (List.append_eq_nil_iff.mp (List.cons.inj root).2).1 is.nonempty
  · rintro rfl
    rfl

theorem pathOf_concat {component : Str} (all : ∀ c ∈ components, Component c) :
    pathOf (components ++ [component]) = childPrefix (pathOf components) ++ component := by
  rw [pathOf, if_neg (by simp), joined_concat, childPrefix]
  by_cases empty : components = []
  · subst empty
    rfl
  · rw [if_neg fun root => empty ((pathOf_eq_root all).mp root), pathOf, if_neg empty]
    simp

theorem childPrefix_ends : ∃ front, childPrefix d = front ++ ['/'] := by
  by_cases root : d = ['/']
  · exact ⟨[], by rw [childPrefix, if_pos root]; rfl⟩
  · exact ⟨d, if_neg root⟩

theorem baseName_child (noSlash : '/' ∉ name) : baseName (childPrefix d ++ name) = name := by
  obtain ⟨front, ends⟩ := childPrefix_ends (d := d)
  rw [baseName, ends, List.append_assoc, List.singleton_append, rfind_last noSlash]
  simp

theorem parentOf_child (nonempty : d ≠ []) (noSlash : '/' ∉ name) (named : name ≠ []) :
    parentOf (childPrefix d ++ name) = d := by
  unfold parentOf childPrefix
  by_cases root : d = ['/']
  · rw [if_pos root, List.singleton_append, if_neg (by simp [named])]
    have first : rfind ([] ++ '/' :: name) '/' = some 0 := rfind_last noSlash
    rw [List.nil_append] at first
    rw [first, root]
    rfl
  · have several : d ++ ['/'] ++ name ≠ ['/'] := by
      intro same
      have lengths := congrArg List.length same
      have positive := List.length_pos_iff.mpr named
      simp only [List.length_append, List.length_cons, List.length_nil] at lengths
      omega
    rw [if_neg root, if_neg several, List.append_assoc, List.singleton_append, rfind_last noSlash]
    obtain ⟨n, positive⟩ : ∃ n, d.length = n + 1 :=
      ⟨d.length - 1, by have := List.length_pos_iff.mpr nonempty; omega⟩
    have cut : substr (d ++ '/' :: name) 0 (n + 1) = d := by
      rw [substr, ← positive, List.drop_zero, List.take_left]
    rw [positive]
    exact cut

theorem parentOf_pathOf {component : Str} (all : ∀ c ∈ components, Component c)
    (is : Component component) : parentOf (pathOf (components ++ [component])) = pathOf components := by
  rw [pathOf_concat all]
  exact parentOf_child pathOf_ne_nil is.noSlash is.nonempty

/-! ## Ancestors -/

theorem foldl_slashes {out : List Str} {indices : List Nat} :
    indices.foldl (fun out i => if p[i]? = some '/' then out ++ [substr p 0 i] else out) out =
      out ++ indices.filterMap fun i => if p[i]? = some '/' then some (substr p 0 i) else none := by
  induction indices generalizing out with
  | nil => simp
  | cons i rest ih =>
      rw [List.foldl_cons, ih, List.filterMap_cons]
      split <;> simp

theorem ancestorsOf_eq (nonempty : p ≠ []) : ancestorsOf p = Gfs.ancestorsOf p := by
  obtain ⟨n, length⟩ : ∃ n, p.length = n + 1 :=
    ⟨p.length - 1, by have := List.length_pos_iff.mpr nonempty; omega⟩
  unfold ancestorsOf Gfs.ancestorsOf
  split
  · rfl
  · rw [foldl_slashes, length, Nat.add_sub_cancel, List.range_eq_range', List.range'_succ,
      List.filterMap_cons]
    simp only [List.singleton_append, Nat.zero_add]
    congr 1
    apply List.filterMap_congr
    intro i member
    have positive : 1 ≤ i := (List.mem_range'_1.mp member).1
    simp [positive, substr]

theorem childPrefix_eq : childPrefix p = Gfs.childPrefix p := rfl

theorem isAncestorOrSelf_eq {a : Str} : isAncestorOrSelf a p = Gfs.isAncestorOrSelf a p := by
  rw [Bool.eq_iff_iff, isAncestorOrSelf_iff]
  unfold isAncestorOrSelf
  by_cases same : a = p
  · simp [same]
  · by_cases root : a = ['/']
    · simp [root]
    · simp only [same, root, ↓reduceIte, false_or, Bool.and_eq_true, decide_eq_true_eq,
        beq_iff_eq, substr, List.drop_zero]
      constructor
      · rintro ⟨⟨shorter, front⟩, slash⟩
        refine ⟨p.drop (a.length + 1), ?_⟩
        obtain ⟨inside, is⟩ := List.getElem?_eq_some_iff.mp slash
        calc a ++ ['/'] ++ p.drop (a.length + 1)
            = p.take a.length ++ p.drop a.length := by
              rw [front, List.drop_eq_getElem_cons inside, is, List.append_assoc,
                List.singleton_append]
          _ = p := List.take_append_drop _ _
      · rintro ⟨rest, rfl⟩
        simp

theorem ancestorsOf_child (nonempty : d ≠ []) (noSlash : '/' ∉ name) (named : name ≠ []) :
    ancestorsOf (childPrefix d ++ name) = ancestorsOf d ++ [d] := by
  have none_inside : ∀ (before : Nat) (path : Str), (∀ i, path[before + i]? = name[i]?) →
      ((List.range name.length).map (before + ·)).filterMap (fun i =>
        if 1 ≤ i ∧ path[i]? = some '/' then some (path.take i) else none) = [] := by
    intro before path here
    rw [List.filterMap_eq_nil_iff]
    intro j member
    obtain ⟨i, -, rfl⟩ := List.mem_map.mp member
    rw [here, if_neg]
    exact fun both => noSlash (List.mem_of_getElem? both.2)
  rw [ancestorsOf_eq (by simp [named]), ancestorsOf_eq nonempty, childPrefix]
  by_cases root : d = ['/']
  · subst root
    have other : ['/'] ++ name ≠ ['/'] := by simpa using named
    have length : (['/'] ++ name).length = 1 + name.length := by simp [Nat.add_comm]
    rw [if_pos rfl, Gfs.ancestorsOf, Gfs.ancestorsOf, if_pos rfl, if_neg other, length,
      List.range_add, List.filterMap_append, none_inside 1 _ (by simp [Nat.add_comm])]
    simp
  · have positive : 1 ≤ d.length := List.length_pos_iff.mpr nonempty
    have other : d ++ ['/'] ++ name ≠ ['/'] := by
      intro same
      have lengths := congrArg List.length same
      simp only [List.length_append, List.length_cons, List.length_nil] at lengths
      omega
    have length : (d ++ ['/'] ++ name).length = d.length + 1 + name.length := by
      simp only [List.length_append, List.length_singleton]
    have before : (List.range d.length).filterMap (fun i =>
        if 1 ≤ i ∧ (d ++ ['/'] ++ name)[i]? = some '/' then some ((d ++ ['/'] ++ name).take i)
        else none) = (List.range d.length).filterMap fun i =>
        if 1 ≤ i ∧ d[i]? = some '/' then some (d.take i) else none := by
      apply List.filterMap_congr
      intro i member
      have inside : i < d.length := List.mem_range.mp member
      rw [List.append_assoc, List.getElem?_append_left inside,
        List.take_append_of_le_length (Nat.le_of_lt inside)]
    rw [if_neg root, Gfs.ancestorsOf, Gfs.ancestorsOf, if_neg root, if_neg other, length,
      List.range_add, List.filterMap_append, none_inside (d.length + 1) _ (by
        intro i
        rw [List.getElem?_append_right (by simp)]
        simp), List.range_succ, List.filterMap_append, before]
    simp [positive]

theorem ancestorsOf_iterate (all : ∀ c ∈ components, Component c) :
    parentOf^[components.length] (pathOf components) = ['/'] ∧
      (∀ i < components.length, parentOf^[i] (pathOf components) ≠ ['/']) ∧
      ancestorsOf (pathOf components) = ((List.range components.length).map fun i =>
        parentOf^[i + 1] (pathOf components)).reverse := by
  induction components using List.reverseRecOn with
  | nil => exact ⟨rfl, nofun, rfl⟩
  | append_singleton above component ih =>
      have all' : ∀ c ∈ above, Component c := fun c member => all c (List.mem_append_left _ member)
      have is : Component component := all component (by simp)
      obtain ⟨top, below, chain⟩ := ih all'
      rw [List.length_append, List.length_singleton]
      refine ⟨?_, ?_, ?_⟩
      · rw [Function.iterate_succ_apply, parentOf_pathOf all' is, top]
      · intro i less
        cases i with
        | zero =>
            intro root
            exact List.append_ne_nil_of_right_ne_nil above (List.cons_ne_nil component [])
              ((pathOf_eq_root all).mp root)
        | succ i =>
            rw [Function.iterate_succ_apply, parentOf_pathOf all' is]
            exact below i (Nat.lt_of_succ_lt_succ less)
      · have step : ∀ i, parentOf^[i + 1] (pathOf (above ++ [component])) =
            parentOf^[i] (pathOf above) := by
          intro i
          rw [Function.iterate_succ_apply, parentOf_pathOf all' is]
        rw [List.range_succ_eq_map, List.map_cons, List.reverse_cons, List.map_map]
        simp only [Function.comp_def, step]
        rw [pathOf_concat all', ancestorsOf_child pathOf_ne_nil is.noSlash is.nonempty, chain]
        rfl

/-! ## The functions on lists -/

theorem exists_last_slash (slash : '/' ∈ p) : ∃ front back, p = front ++ '/' :: back ∧ '/' ∉ back := by
  obtain ⟨back, front, split, free⟩ := List.eq_append_cons_of_mem (List.mem_reverse.mpr slash)
  refine ⟨front.reverse, back.reverse, ?_, by simpa using free⟩
  rw [← List.reverse_reverse p, split]
  simp

theorem noSlash_takeWhile {back : Str} (free : '/' ∉ back) :
    ∀ c ∈ back.reverse, decide (c ≠ '/') = true := by
  intro c member
  apply decide_eq_true
  rintro rfl
  exact free (List.mem_reverse.mp member)

theorem baseName_eq : baseName p = Gfs.baseName p := by
  unfold baseName Gfs.baseName
  by_cases slash : '/' ∈ p
  · obtain ⟨front, back, rfl, free⟩ := exists_last_slash slash
    rw [rfind_last free, List.reverse_append, List.reverse_cons, List.append_assoc,
      List.takeWhile_append_of_pos (noSlash_takeWhile free)]
    simp
  · rw [rfind_none slash, Option.elim_none, List.drop_zero,
      List.takeWhile_eq_self_iff.mpr (noSlash_takeWhile slash), List.reverse_reverse]

theorem parentOf_eq (slash : '/' ∈ p) : parentOf p = Gfs.parentOf p := by
  obtain ⟨front, back, rfl, free⟩ := exists_last_slash slash
  have rest : (front ++ '/' :: back).reverse.dropWhile (· ≠ '/') = '/' :: front.reverse := by
    rw [List.reverse_append, List.reverse_cons, List.append_assoc,
      List.dropWhile_append_of_pos (noSlash_takeWhile free)]
    simp
  unfold parentOf Gfs.parentOf
  rw [rest, rfind_last free]
  cases front with
  | nil => split <;> rfl
  | cons c front =>
      obtain ⟨last, init, turned⟩ :=
        List.exists_cons_of_ne_nil (l := (c :: front).reverse) (by simp)
      have several : c :: front ++ '/' :: back ≠ ['/'] := by
        intro same
        simpa using congrArg List.length same
      rw [if_neg several, turned]
      have here : init.reverse ++ [last] = c :: front := by
        rw [← List.reverse_cons, ← turned, List.reverse_reverse]
      simp [substr, here]

theorem isHiddenPath_eq : isHiddenPath p = Gfs.isHiddenPath p := by
  unfold isHiddenPath Gfs.isHiddenPath
  rw [baseName_eq, Bool.eq_iff_iff]
  simp only [Bool.and_eq_true, beq_iff_eq, substr, List.drop_zero, List.isPrefixOf_iff_prefix]
  exact and_congr_right fun _ => ⟨fun same => same ▸ List.take_prefix _ _,
    fun within => (List.prefix_iff_eq_take.mp within).symm⟩

theorem hiddenNameFor_eq_list {stamp : Int} (slash : '/' ∈ p) :
    hiddenNameFor p stamp = Gfs.hiddenNameFor p stamp := by
  unfold hiddenNameFor Gfs.hiddenNameFor
  rw [parentOf_eq slash, baseName_eq, childPrefix_eq]

theorem parseHiddenName_eq (slash : '/' ∈ p) : parseHiddenName p = Gfs.parseHiddenName p := by
  unfold parseHiddenName Gfs.parseHiddenName
  rw [isHiddenPath_eq, parentOf_eq slash, baseName_eq, childPrefix_eq]
  split
  · generalize (Gfs.baseName p).drop hiddenPrefix.length = rest
    dsimp only
    by_cases dot : '.' ∈ rest
    · obtain ⟨stamp, original, rfl, free⟩ := List.eq_append_cons_of_mem dot
      have before : (stamp ++ '.' :: original).takeWhile (· ≠ '.') = stamp := by
        rw [List.takeWhile_append_of_pos]
        · simp
        · intro c member
          apply decide_eq_true
          rintro rfl
          exact free member
      have text : substr (stamp ++ '.' :: original) 0 stamp.length = stamp := by
        rw [substr, List.drop_zero, List.take_left]
      have behind : (stamp ++ '.' :: original).drop (stamp.length + 1) = original := by
        rw [← List.drop_drop, List.drop_left]
        rfl
      rw [find_first free, before, List.drop_left]
      dsimp only
      rw [text, behind]
      have same : (stamp.length = 0 ∨ (stamp ++ '.' :: original).length ≤ stamp.length + 1) ↔
          (stamp = [] ∨ original = []) := by
        rw [List.length_append, List.length_cons, List.length_eq_zero_iff]
        refine or_congr_right ?_
        rw [← List.length_eq_zero_iff]
        omega
      simp only [same]
    · have none_left : find rest '.' 0 = none := by
        rw [find, Option.map_eq_none_iff, List.findIdx?_eq_none_iff]
        intro c member
        apply decide_eq_false
        rintro rfl
        exact dot (by simpa using member)
      have all : rest.takeWhile (· ≠ '.') = rest := by
        rw [List.takeWhile_eq_self_iff]
        intro c member
        apply decide_eq_true
        rintro rfl
        exact dot member
      rw [none_left, all, List.drop_length]
  · rfl

/-- The functions agree on the tree of the valid paths. -/
theorem paths_agree (a p : Str) :
    (isValidPath p = true ↔ p = ['/'] ∨ ∃ components, components ≠ [] ∧
      p = components.flatMap ('/' :: ·) ∧
      ∀ c ∈ components, c ≠ [] ∧ '/' ∉ c ∧ c ≠ ['.'] ∧ c ≠ ['.', '.']) ∧
    (isValidPath p = true →
      (∃ n, parentOf^[n] p = ['/'] ∧ (∀ i < n, parentOf^[i] p ≠ ['/']) ∧
        ancestorsOf p = ((List.range n).map fun i => parentOf^[i + 1] p).reverse) ∧
      (p ≠ ['/'] → childPrefix (parentOf p) ++ baseName p = p)) ∧
    (isValidPath a = true → isValidPath p = true →
      (isAncestorOrSelf a p = true ↔ a = p ∨ a ∈ ancestorsOf p) ∧
      (isAncestorOrSelf a p = true ↔ a = p ∨ childPrefix a <+: p)) := by
  refine ⟨?_, ?_, ?_⟩
  · rw [isValidPath_iff]
    constructor
    · rintro ⟨components, rfl, all⟩
      by_cases empty : components = []
      · exact .inl (if_pos empty)
      · refine .inr ⟨components, empty, if_neg empty, fun c member => ?_⟩
        obtain ⟨nonempty, noSlash, notHere, notAbove⟩ := all c member
        exact ⟨nonempty, noSlash, notHere, notAbove⟩
    · rintro (rfl | ⟨components, nonempty, rfl, all⟩)
      · exact ⟨[], rfl, nofun⟩
      · refine ⟨components, (if_neg nonempty).symm, fun c member => ?_⟩
        obtain ⟨nonempty, noSlash, notHere, notAbove⟩ := all c member
        exact ⟨nonempty, noSlash, notHere, notAbove⟩
  · intro valid
    obtain ⟨components, rfl, all⟩ := isValidPath_iff.mp valid
    refine ⟨⟨components.length, ancestorsOf_iterate all⟩, fun notRoot => ?_⟩
    obtain ⟨above, component, rfl⟩ := (List.eq_nil_or_concat components).resolve_left
      fun empty => notRoot ((pathOf_eq_root all).mpr empty)
    rw [List.concat_eq_append] at all ⊢
    have all' : ∀ c ∈ above, Component c := fun c member => all c (List.mem_append_left _ member)
    have is : Component component := all component (by simp)
    rw [parentOf_pathOf all' is, pathOf_concat all', baseName_child is.noSlash]
  · intro valid valid'
    rw [isValidPath_eq] at valid valid'
    have nonempty := isValidPath_ne_nil valid
    rw [isAncestorOrSelf_eq, ancestorsOf_eq (isValidPath_ne_nil valid'), childPrefix_eq]
    constructor
    · by_cases root : p = ['/']
      · subst root
        rw [Gfs.ancestorsOf, if_pos rfl]
        constructor
        · exact fun above => .inl (eq_root_of_isAncestorOrSelf nonempty above)
        · rintro (rfl | none)
          · exact isAncestorOrSelf_self
          · cases none
      · rw [mem_ancestorsOf nonempty root]
        constructor
        · intro above
          by_cases same : a = p
          · exact .inl same
          · exact .inr ⟨above, same⟩
        · rintro (rfl | above)
          · exact isAncestorOrSelf_self
          · exact above.1
    · by_cases root : a = ['/']
      · subst root
        refine iff_of_true isAncestorOrSelf_root (.inr ?_)
        obtain ⟨rest, rfl⟩ := isValidPath_cons valid'
        exact ⟨rest, rfl⟩
      · exact isAncestorOrSelf_iff_childPrefix root

/-! ## Hidden names -/

theorem parseInt64_decimal {stamp : Int} (low : -2 ^ 63 ≤ stamp) (high : stamp < 2 ^ 63) :
    parseInt64 (decimal stamp) = some stamp := by
  have digits : ∀ n : Nat, Nat.toDigits 10 n ≠ [] ∧ (Nat.toDigits 10 n).all Char.isDigit = true ∧
      Nat.ofDigitChars 10 (Nat.toDigits 10 n) 0 = n := by
    intro n
    refine ⟨Nat.toDigits_ne_nil, ?_, Nat.ofDigitChars_ten_toDigits⟩
    exact List.all_eq_true.mpr fun c member =>
      Nat.isDigit_of_mem_toDigits (by decide) (by decide) member
  cases stamp with
  | ofNat n =>
      obtain ⟨nonempty, all, value⟩ := digits n
      have noMinus : ∀ rest, Nat.toDigits 10 n ≠ '-' :: rest := by
        intro rest same
        have digit := List.all_eq_true.mp all '-' (same ▸ List.mem_cons_self)
        simp at digit
      have small : n < 2 ^ 63 := by
        have bound : (n : Int) < 2 ^ 63 := high
        omega
      unfold parseInt64 decimal
      split
      · rename_i rest same
        exact absurd same (noMinus rest)
      · rw [if_pos ⟨nonempty, all, by rw [value]; exact small⟩, value]
        rfl
  | negSucc n =>
      obtain ⟨nonempty, all, value⟩ := digits (n + 1)
      have small : n + 1 ≤ 2 ^ 63 := by
        have bound : -2 ^ 63 ≤ -(n + 1 : Int) := low
        omega
      unfold parseInt64 decimal
      simp only
      rw [if_pos ⟨nonempty, all, by rw [value]; exact small⟩, value]
      rfl

theorem decimal_no_dot {stamp : Int} : '.' ∉ decimal stamp := by
  have digits : ∀ n, '.' ∉ Nat.toDigits 10 n := by
    intro n dot
    have digit := Nat.isDigit_of_mem_toDigits (by decide) (by decide) dot
    simp at digit
  cases stamp with
  | ofNat n => exact digits n
  | negSucc n => simp [decimal, digits]

theorem decimal_ne_nil {stamp : Int} : decimal stamp ≠ [] := by
  cases stamp with
  | ofNat n => exact Nat.toDigits_ne_nil
  | negSucc n => exact List.cons_ne_nil _ _

/-- The name that stands for `name`. -/
def hiddenComponent (name : Str) (stamp : Int) : Str :=
  hiddenPrefix ++ (decimal stamp ++ '.' :: name)

theorem hiddenNameFor_eq {stamp : Int} :
    hiddenNameFor p stamp = childPrefix (parentOf p) ++ hiddenComponent (baseName p) stamp := by
  simp [hiddenNameFor, hiddenComponent]

theorem hiddenComponent_is {stamp : Int} (is : Component name) :
    Component (hiddenComponent name stamp) := by
  have long : 9 < (hiddenComponent name stamp).length := by
    have dots : hiddenPrefix.length = 9 := rfl
    simp only [hiddenComponent, List.length_append, List.length_cons, dots]
    omega
  refine ⟨?_, ?_, ?_, ?_⟩
  · intro same
    simp [same] at long
  · have hidden : '/' ∉ hiddenPrefix := by decide
    simp [hiddenComponent, hidden, decimal_no_slash, is.noSlash]
  · intro same
    simp [same] at long
  · intro same
    simp [same] at long

theorem parseHiddenName_of {stamp : Int} (low : -2 ^ 63 ≤ stamp) (high : stamp < 2 ^ 63)
    (base : baseName text = hiddenComponent name stamp) (named : name ≠ []) :
    isHiddenPath text = true ∧
      parseHiddenName text = some (stamp, childPrefix (parentOf text) ++ name) := by
  have hidden : isHiddenPath text = true := by
    unfold isHiddenPath
    rw [base, hiddenComponent]
    have longer : hiddenPrefix.length < (hiddenPrefix ++ (decimal stamp ++ '.' :: name)).length := by
      simp only [List.length_append, List.length_cons]
      omega
    have start : substr (hiddenPrefix ++ (decimal stamp ++ '.' :: name)) 0 hiddenPrefix.length =
        hiddenPrefix := by
      rw [substr, List.drop_zero, List.take_left]
    dsimp only
    rw [decide_eq_true longer, start, BEq.rfl]
    rfl
  have rest : (baseName text).drop hiddenPrefix.length = decimal stamp ++ '.' :: name := by
    rw [base, hiddenComponent, List.drop_left]
  have stampText : substr (decimal stamp ++ '.' :: name) 0 (decimal stamp).length =
      decimal stamp := by
    rw [substr, List.drop_zero, List.take_left]
  have original : (decimal stamp ++ '.' :: name).drop ((decimal stamp).length + 1) = name := by
    rw [← List.drop_drop, List.drop_left]
    rfl
  have some : decimal stamp ≠ [] := decimal_ne_nil
  have positive := List.length_pos_iff.mpr some
  have longer : ¬((decimal stamp).length = 0 ∨
      (decimal stamp ++ '.' :: name).length ≤ (decimal stamp).length + 1) := by
    have some := List.length_pos_iff.mpr named
    rw [List.length_append, List.length_cons]
    omega
  refine ⟨hidden, ?_⟩
  unfold parseHiddenName
  rw [if_pos hidden]
  simp only [rest]
  rw [find_first decimal_no_dot]
  simp only
  rw [if_neg longer, stampText, original, parseInt64_decimal low high]
  rfl

theorem decodes {t : Int} (valid : isValidPath p = true) (notRoot : p ≠ ['/'])
    (low : -2 ^ 63 ≤ t) (high : t < 2 ^ 63) :
    isValidPath (hiddenNameFor p t) = true ∧ parentOf (hiddenNameFor p t) = parentOf p ∧
      isHiddenPath (hiddenNameFor p t) = true ∧ parseHiddenName (hiddenNameFor p t) = some (t, p) := by
  obtain ⟨components, rfl, all⟩ := isValidPath_iff.mp valid
  obtain ⟨above, component, rfl⟩ := (List.eq_nil_or_concat components).resolve_left
    fun empty => notRoot ((pathOf_eq_root all).mpr empty)
  rw [List.concat_eq_append] at all ⊢
  have all' : ∀ c ∈ above, Component c := fun c member => all c (List.mem_append_left _ member)
  have is : Component component := all component (by simp)
  have base : baseName (pathOf (above ++ [component])) = component := by
    rw [pathOf_concat all', baseName_child is.noSlash]
  have hidden : Component (hiddenComponent component t) := hiddenComponent_is is
  have name : hiddenNameFor (pathOf (above ++ [component])) t =
      pathOf (above ++ [hiddenComponent component t]) := by
    rw [hiddenNameFor_eq, parentOf_pathOf all' is, base, pathOf_concat all']
  have parent : parentOf (pathOf (above ++ [hiddenComponent component t])) = pathOf above :=
    parentOf_pathOf all' hidden
  have hiddenBase : baseName (pathOf (above ++ [hiddenComponent component t])) =
      hiddenComponent component t := by
    rw [pathOf_concat all', baseName_child hidden.noSlash]
  obtain ⟨isHidden, parsed⟩ := parseHiddenName_of low high hiddenBase is.nonempty
  rw [parent, ← pathOf_concat all'] at parsed
  rw [name, parent, parentOf_pathOf all' is]
  refine ⟨isValidPath_iff.mpr ⟨_, rfl, ?_⟩, rfl, isHidden, parsed⟩
  intro c member
  rcases List.mem_append.mp member with old | new
  · exact all' c old
  · exact List.mem_singleton.mp new ▸ hidden

/-- A hidden name is a valid path beside its path, and says of which path and stamp it is made. -/
theorem hidden_decodes (p : Str) (t : Int) (valid : isValidPath p = true) (notRoot : p ≠ ['/'])
    (low : -2 ^ 63 ≤ t) (high : t < 2 ^ 63) :
    isValidPath (hiddenNameFor p t) = true ∧ parentOf (hiddenNameFor p t) = parentOf p ∧
      isHiddenPath (hiddenNameFor p t) = true ∧
      parseHiddenName (hiddenNameFor p t) = some (t, p) ∧
      ∀ (p' : Str) (t' : Int), isValidPath p' = true → p' ≠ ['/'] → -2 ^ 63 ≤ t' → t' < 2 ^ 63 →
        (p, t) ≠ (p', t') → hiddenNameFor p t ≠ hiddenNameFor p' t' := by
  obtain ⟨isPath, parent, hidden, parsed⟩ := decodes valid notRoot low high
  refine ⟨isPath, parent, hidden, parsed, ?_⟩
  intro p' t' valid' notRoot' low' high' different same
  obtain ⟨-, -, -, parsed'⟩ := decodes valid' notRoot' low' high'
  rw [same, parsed', Option.some.injEq, Prod.mk.injEq] at parsed
  exact different (by rw [parsed.1, parsed.2])

/-- A hidden file that is deleted once more, at a time before the epoch. -/
theorem hidden_decodes_nested :
    parseHiddenName (hiddenNameFor "/d/.deleted.7.a.b".toList (-12)) =
      some (-12, "/d/.deleted.7.a.b".toList) :=
  (hidden_decodes "/d/.deleted.7.a.b".toList (-12)
    (isValidPath_iff.mpr ⟨["d".toList, ".deleted.7.a.b".toList], by decide, by
      intro c member
      have both : c = "d".toList ∨ c = ".deleted.7.a.b".toList := by simpa using member
      rcases both with rfl | rfl <;> exact ⟨by decide, by decide, by decide, by decide⟩⟩)
    (by decide) (by decide) (by decide)).2.2.2.1

end

end Gfs.PathStrings
