import Gfs.Common.Base
import Mathlib.Data.List.TakeWhile

/-!
# `common/paths.cc`

The functions on path strings, and the tree that they make of the valid paths: being at or below a
path is an order in which the paths above one path are comparable. A hidden name stands beside the
path that it is made from.
-/

namespace Gfs

def childPrefix (directory : Str) : Str := if directory = ['/'] then ['/'] else directory ++ ['/']

def isAncestorOrSelf (ancestor path : Str) : Bool :=
  ancestor == path || ancestor == ['/'] || (ancestor ++ ['/']).isPrefixOf path

def hiddenPrefix : Str := ".deleted.".toList

def baseName (path : Str) : Str := (path.reverse.takeWhile (· ≠ '/')).reverse

def isHiddenPath (path : Str) : Bool :=
  decide (hiddenPrefix.length < (baseName path).length) && hiddenPrefix.isPrefixOf (baseName path)

def isValidComponent (component : Str) : Bool :=
  !component.isEmpty && component ≠ ['.'] && component ≠ ['.', '.']

def isValidPath (path : Str) : Bool :=
  match path with
  | '/' :: rest => rest.isEmpty || (rest.splitOn '/').all isValidComponent
  | _ => false

def parentOf (path : Str) : Str :=
  match path.reverse.dropWhile (· ≠ '/') with
  | [] | [_] => ['/']
  | _ :: parent => parent.reverse

/-- The root first. -/
def ancestorsOf (path : Str) : List Str :=
  if path = ['/'] then []
  else ['/'] :: (List.range path.length).filterMap fun i =>
    if 1 ≤ i ∧ path[i]? = some '/' then some (path.take i) else none

/-- `std::to_string` of a signed number. -/
def decimal : Int → Str
  | .ofNat n => Nat.toDigits 10 n
  | .negSucc n => '-' :: Nat.toDigits 10 (n + 1)

def hiddenNameFor (path : Str) (unixSeconds : Int) : Str :=
  childPrefix (parentOf path) ++ hiddenPrefix ++ decimal unixSeconds ++ ['.'] ++ baseName path

/-- `std::from_chars` that reads all of the text as a 64-bit signed number. -/
def parseInt64 (text : Str) : Option Int :=
  match text with
  | '-' :: digits =>
      if digits ≠ [] ∧ digits.all Char.isDigit ∧ Nat.ofDigitChars 10 digits 0 ≤ 2 ^ 63 then
        some (-(Nat.ofDigitChars 10 digits 0 : Int))
      else none
  | digits =>
      if digits ≠ [] ∧ digits.all Char.isDigit ∧ Nat.ofDigitChars 10 digits 0 < 2 ^ 63 then
        some (Nat.ofDigitChars 10 digits 0)
      else none

def parseHiddenName (path : Str) : Option (Int × Str) :=
  if isHiddenPath path then
    let rest := (baseName path).drop hiddenPrefix.length
    let stamp := rest.takeWhile (· ≠ '.')
    match rest.drop stamp.length with
    | _ :: original =>
        if stamp = [] ∨ original = [] then none
        else (parseInt64 stamp).map fun stamp => (stamp, childPrefix (parentOf path) ++ original)
    | [] => none
  else none

/-! ## The order of the tree -/

section
variable {a b p q : Str}

theorem isAncestorOrSelf_iff :
    isAncestorOrSelf a p = true ↔ a = p ∨ a = ['/'] ∨ a ++ ['/'] <+: p := by
  simp [isAncestorOrSelf, or_assoc]

@[simp] theorem isAncestorOrSelf_self : isAncestorOrSelf p p = true :=
  isAncestorOrSelf_iff.mpr (.inl rfl)

@[simp] theorem isAncestorOrSelf_root : isAncestorOrSelf ['/'] p = true :=
  isAncestorOrSelf_iff.mpr (.inr (.inl rfl))

theorem isAncestorOrSelf_comparable (first : isAncestorOrSelf a p = true)
    (second : isAncestorOrSelf b p = true) :
    isAncestorOrSelf a b = true ∨ isAncestorOrSelf b a = true := by
  rcases isAncestorOrSelf_iff.mp first with rfl | rfl | firstPrefix
  · exact .inr second
  · exact .inl isAncestorOrSelf_root
  · rcases isAncestorOrSelf_iff.mp second with rfl | rfl | secondPrefix
    · exact .inl first
    · exact .inr isAncestorOrSelf_root
    · -- two prefixes of one path that both end in a slash
      have order : ∀ {x y : Str}, x ++ ['/'] <+: y ++ ['/'] → isAncestorOrSelf x y = true := by
        intro x y shorter
        rcases List.prefix_concat_iff.mp shorter with same | within
        · exact isAncestorOrSelf_iff.mpr (.inl (List.append_cancel_right same))
        · exact isAncestorOrSelf_iff.mpr (.inr (.inr within))
      rcases List.prefix_or_prefix_of_prefix firstPrefix secondPrefix with shorter | longer
      · exact .inl (order shorter)
      · exact .inr (order longer)

theorem eq_root_of_isAncestorOrSelf (nonempty : a ≠ []) (above : isAncestorOrSelf a ['/'] = true) :
    a = ['/'] := by
  rcases isAncestorOrSelf_iff.mp above with same | same | within
  · exact same
  · exact same
  · have short := within.length_le
    simp only [List.length_append, List.length_cons, List.length_nil] at short
    exact absurd (List.length_eq_zero_iff.mp (by omega)) nonempty

theorem isAncestorOrSelf_trans (nonempty : a ≠ []) (first : isAncestorOrSelf a b = true)
    (second : isAncestorOrSelf b p = true) : isAncestorOrSelf a p = true := by
  rcases isAncestorOrSelf_iff.mp second with rfl | rfl | below
  · exact first
  · rw [eq_root_of_isAncestorOrSelf nonempty first]
    exact isAncestorOrSelf_root
  · rcases isAncestorOrSelf_iff.mp first with rfl | rfl | above
    · exact second
    · exact isAncestorOrSelf_root
    · have longer : b <+: p := (List.prefix_append b ['/']).trans below
      exact isAncestorOrSelf_iff.mpr (.inr (.inr (above.trans longer)))

theorem isAncestorOrSelf_antisymm (nonempty : a ≠ []) (nonempty' : b ≠ [])
    (first : isAncestorOrSelf a b = true) (second : isAncestorOrSelf b a = true) : a = b := by
  rcases isAncestorOrSelf_iff.mp first with same | rfl | above
  · exact same
  · exact (eq_root_of_isAncestorOrSelf nonempty' second).symm
  · rcases isAncestorOrSelf_iff.mp second with same | rfl | below
    · exact same.symm
    · exact eq_root_of_isAncestorOrSelf nonempty first
    · have one := above.length_le
      have two := below.length_le
      simp only [List.length_append, List.length_cons, List.length_nil] at one two
      omega

/-! ## Directories -/

/-- Neither empty nor the root, as the paths of files are. -/
structure Proper (path : Str) : Prop where
  nonempty : path ≠ []
  notRoot : path ≠ ['/']

theorem childPrefix_of_ne (notRoot : p ≠ ['/']) : childPrefix p = p ++ ['/'] := if_neg notRoot

theorem isAncestorOrSelf_of_childPrefix (below : childPrefix p <+: q) :
    isAncestorOrSelf p q = true := by
  by_cases root : p = ['/']
  · rw [root]
    exact isAncestorOrSelf_root
  · rw [childPrefix_of_ne root] at below
    exact isAncestorOrSelf_iff.mpr (.inr (.inr below))

theorem childPrefix_slash : ∃ front, childPrefix p = front ++ ['/'] := by
  by_cases root : p = ['/']
  · exact ⟨[], if_pos root⟩
  · exact ⟨p, if_neg root⟩

theorem ne_of_childPrefix (notRoot : p ≠ ['/']) (below : childPrefix p <+: q) : p ≠ q := by
  rintro rfl
  rw [childPrefix_of_ne notRoot] at below
  have longer := below.length_le
  simp only [List.length_append, List.length_cons, List.length_nil] at longer
  omega

theorem isAncestorOrSelf_iff_childPrefix (notRoot : p ≠ ['/']) :
    isAncestorOrSelf p q = true ↔ p = q ∨ childPrefix p <+: q := by
  rw [isAncestorOrSelf_iff, childPrefix_of_ne notRoot]
  simp [notRoot]

theorem mem_ancestorsOf (nonempty : a ≠ []) (notRoot : p ≠ ['/']) :
    a ∈ ancestorsOf p ↔ isAncestorOrSelf a p = true ∧ a ≠ p := by
  rw [ancestorsOf, if_neg notRoot, List.mem_cons, List.mem_filterMap]
  constructor
  · rintro (rfl | ⟨i, _, found⟩)
    · exact ⟨isAncestorOrSelf_root, Ne.symm notRoot⟩
    · simp only [Option.ite_none_right_eq_some, Option.some.injEq] at found
      obtain ⟨⟨_, slash⟩, rfl⟩ := found
      obtain ⟨inside, _⟩ := List.getElem?_eq_some_iff.mp slash
      have next : p.take i ++ ['/'] = p.take (i + 1) := by
        rw [List.take_add_one, slash]
        rfl
      refine ⟨isAncestorOrSelf_iff.mpr (.inr (.inr (next ▸ List.take_prefix _ _))), fun same => ?_⟩
      have lengths := congrArg List.length same
      rw [List.length_take] at lengths
      omega
  · rintro ⟨above, different⟩
    rcases isAncestorOrSelf_iff.mp above with same | root | ⟨rest, split⟩
    · exact absurd same different
    · exact .inl root
    · refine .inr ⟨a.length, ?_, ?_⟩
      · rw [List.mem_range, ← split]
        simp only [List.length_append, List.length_cons, List.length_nil]
        omega
      · have positive : 1 ≤ a.length := List.length_pos_iff.mpr nonempty
        rw [← split, List.append_assoc]
        simp [positive]

/-! ## Valid paths -/

theorem isValidPath_cons (valid : isValidPath p = true) : ∃ rest, p = '/' :: rest := by
  unfold isValidPath at valid
  split at valid
  · exact ⟨_, rfl⟩
  · cases valid

theorem isValidPath_ne_nil (valid : isValidPath p = true) : p ≠ [] := by
  obtain ⟨rest, rfl⟩ := isValidPath_cons valid
  exact List.cons_ne_nil _ _

theorem isValidPath_proper (valid : isValidPath p = true) (notRoot : p ≠ ['/']) : Proper p :=
  ⟨isValidPath_ne_nil valid, notRoot⟩

theorem not_isValidPath_slashes {rest : Str} : isValidPath ('/' :: '/' :: rest) = false := by
  have first : ('/' :: rest).splitOn '/' = [] :: rest.splitOn '/' := by
    simp [List.splitOn, List.splitOnP_cons_eq_if_modifyHead]
  simp [isValidPath, first, isValidComponent]

theorem baseName_no_slash : '/' ∉ baseName p := by
  intro slash
  have found := List.mem_takeWhile_imp (List.mem_reverse.mp slash)
  simp at found

theorem childPrefix_parentOf (valid : isValidPath p = true) :
    childPrefix (parentOf p) ++ baseName p = p := by
  obtain ⟨tail, isPath⟩ := isValidPath_cons valid
  have whole : (p.reverse.dropWhile (· ≠ '/')).reverse ++ baseName p = p := by
    rw [baseName, ← List.reverse_append, List.takeWhile_append_dropWhile, List.reverse_reverse]
  have parent : parentOf p = match p.reverse.dropWhile (· ≠ '/') with
    | [] | [_] => ['/']
    | _ :: parent => parent.reverse := rfl
  cases rest : p.reverse.dropWhile (· ≠ '/') with
  | nil =>
      have none := List.dropWhile_eq_nil_iff.mp rest '/' (by simp [isPath])
      simp at none
  | cons slash above =>
      have head := List.head?_dropWhile_not (fun c => decide (c ≠ '/')) p.reverse
      rw [rest] at head
      have isSlash : slash = '/' := by simpa using head
      subst isSlash
      rw [rest] at whole parent
      rw [List.reverse_cons] at whole
      cases above with
      | nil =>
          rw [parent]
          exact whole
      | cons c above =>
          have notRoot : (c :: above).reverse ≠ ['/'] := by
            intro same
            rw [same] at whole
            rw [← whole] at valid
            simp [not_isValidPath_slashes] at valid
          rw [parent]
          exact childPrefix_of_ne notRoot ▸ whole

theorem isAncestorOrSelf_child {name : Str} (nonempty : a ≠ []) (noSlash : '/' ∉ name) :
    isAncestorOrSelf a (childPrefix p ++ name) = true ↔
      a = childPrefix p ++ name ∨ isAncestorOrSelf a p = true := by
  constructor
  · intro above
    rcases isAncestorOrSelf_iff.mp above with same | rfl | ⟨rest, split⟩
    · exact .inl same
    · exact .inr isAncestorOrSelf_root
    · right
      -- the slash after `a` is not in the name
      have inside : a ++ ['/'] <+: childPrefix p := by
        rcases List.append_eq_append_iff.mp split with ⟨part, same, _⟩ | ⟨part, same, within⟩
        · exact ⟨part, same.symm⟩
        · rcases List.eq_nil_or_concat part with rfl | ⟨front, last, rfl⟩
          · rw [List.append_nil] at same
            exact ⟨[], by rw [List.append_nil, same]⟩
          · rw [List.concat_eq_append, ← List.append_assoc] at same
            have isSlash := (List.append_inj' same rfl).2
            simp only [List.cons.injEq, and_true] at isSlash
            exact absurd (by simp [within, ← isSlash]) noSlash
      by_cases root : p = ['/']
      · subst root
        have above : isAncestorOrSelf a ['/'] = true :=
          isAncestorOrSelf_iff.mpr (.inr (.inr inside))
        exact above
      · rw [childPrefix_of_ne root] at inside
        rcases List.prefix_concat_iff.mp inside with same | shorter
        · exact isAncestorOrSelf_iff.mpr (.inl (List.append_cancel_right same))
        · exact isAncestorOrSelf_iff.mpr (.inr (.inr shorter))
  · rintro (rfl | above)
    · exact isAncestorOrSelf_self
    · exact isAncestorOrSelf_trans nonempty above
        (isAncestorOrSelf_of_childPrefix (List.prefix_append _ _))

theorem not_isAncestorOrSelf_child {name : Str} (nonempty : p ≠ []) (named : name ≠ []) :
    isAncestorOrSelf (childPrefix p ++ name) p = false := by
  by_contra below
  have longer : childPrefix p ++ name ≠ [] := by simp [named]
  have same := isAncestorOrSelf_antisymm longer nonempty (by simpa using below)
    (isAncestorOrSelf_of_childPrefix (List.prefix_append _ _))
  have lengths := congrArg List.length same
  have positive : 0 < name.length := List.length_pos_iff.mpr named
  by_cases root : p = ['/']
  · subst root
    exact named (by simpa [childPrefix] using lengths)
  · rw [childPrefix_of_ne root] at lengths
    simp at lengths

theorem baseName_ne_nil (valid : isValidPath p = true) (notRoot : p ≠ ['/']) : baseName p ≠ [] := by
  intro empty
  have whole := childPrefix_parentOf valid
  rw [empty, List.append_nil] at whole
  obtain ⟨front, slash⟩ : ∃ front, childPrefix (parentOf p) = front ++ ['/'] := childPrefix_slash
  rw [whole] at slash
  cases front with
  | nil => exact notRoot slash
  | cons c front =>
      obtain ⟨tail, isPath⟩ := isValidPath_cons valid
      rw [slash] at isPath valid
      obtain ⟨rfl, rfl⟩ := List.cons.inj isPath
      have last : (front ++ ['/']).splitOn '/' = front.splitOn '/' ++ [[]] :=
        List.splitOnP_append_cons front [] (by simp)
      simp [isValidPath, last, isValidComponent] at valid

/-! ## Hidden names -/

/-- The last component of a hidden name. -/
def hiddenName (path : Str) (unixSeconds : Int) : Str :=
  hiddenPrefix ++ decimal unixSeconds ++ ['.'] ++ baseName path

theorem hiddenNameFor_eq {stamp : Int} :
    hiddenNameFor p stamp = childPrefix (parentOf p) ++ hiddenName p stamp := by
  simp [hiddenNameFor, hiddenName]

theorem decimal_no_slash {stamp : Int} : '/' ∉ decimal stamp := by
  have digits : ∀ n, '/' ∉ Nat.toDigits 10 n := by
    intro n slash
    have digit := Nat.isDigit_of_mem_toDigits (by decide) (by decide) slash
    simp at digit
  cases stamp with
  | ofNat n => exact digits n
  | negSucc n => simp [decimal, digits]

theorem hiddenName_no_slash {stamp : Int} : '/' ∉ hiddenName p stamp := by
  have hidden : '/' ∉ hiddenPrefix := by decide +kernel
  simp [hiddenName, hidden, decimal_no_slash, baseName_no_slash]

theorem decimal_injective : Function.Injective decimal := by
  have digits : ∀ m n, Nat.toDigits 10 m = Nat.toDigits 10 n → m = n := by
    intro m n same
    have back := congrArg (fun text => Nat.ofDigitChars 10 text 0) same
    simpa [Nat.ofDigitChars_ten_toDigits] using back
  have noMinus : ∀ n, '-' ∉ Nat.toDigits 10 n := by
    intro n minus
    have digit := Nat.isDigit_of_mem_toDigits (by decide) (by decide) minus
    simp at digit
  intro s t same
  cases s with
  | ofNat m =>
      cases t with
      | ofNat n => exact congrArg Int.ofNat (digits m n same)
      | negSucc n =>
          have first : Nat.toDigits 10 m = '-' :: Nat.toDigits 10 (n + 1) := same
          exact absurd (first ▸ List.mem_cons_self) (noMinus m)
  | negSucc m =>
      cases t with
      | ofNat n =>
          have first : '-' :: Nat.toDigits 10 (m + 1) = Nat.toDigits 10 n := same
          exact absurd (first ▸ List.mem_cons_self) (noMinus n)
      | negSucc n =>
          have rest := digits _ _ (List.cons.inj same).2
          exact congrArg Int.negSucc (by omega)

theorem hiddenNameFor_injective : Function.Injective (hiddenNameFor p) := by
  intro s t same
  simp only [hiddenNameFor, List.append_assoc] at same
  have rest := List.append_cancel_left (List.append_cancel_left same)
  exact decimal_injective (List.append_cancel_right rest)

theorem hiddenNameFor_proper {stamp : Int} : Proper (hiddenNameFor p stamp) := by
  have long : 1 < (hiddenNameFor p stamp).length := by
    have dots : hiddenPrefix.length = 9 := rfl
    simp only [hiddenNameFor, List.length_append, dots]
    omega
  constructor <;> intro same <;> simp [same] at long

theorem parentOf_ne_nil : parentOf p ≠ [] := by
  unfold parentOf
  split
  · simp
  · simp
  · rename_i several _
    simp_all

theorem isAncestorOrSelf_hiddenNameFor (valid : isValidPath p = true) (notRoot : p ≠ ['/'])
    (nonempty : a ≠ []) {stamp : Int} (above : isAncestorOrSelf a (hiddenNameFor p stamp) = true) :
    a = hiddenNameFor p stamp ∨ isAncestorOrSelf a p = true ∧ a ≠ p := by
  rw [hiddenNameFor_eq] at above ⊢
  rcases (isAncestorOrSelf_child nonempty hiddenName_no_slash).mp above with same | inParent
  · exact .inl same
  · right
    have whole := childPrefix_parentOf valid
    have toChild : isAncestorOrSelf (parentOf p) p = true := isAncestorOrSelf_of_childPrefix ⟨_, whole⟩
    refine ⟨isAncestorOrSelf_trans nonempty inParent toChild, ?_⟩
    rintro rfl
    have child := not_isAncestorOrSelf_child (parentOf_ne_nil (p := a)) (baseName_ne_nil valid notRoot)
    rw [whole, inParent] at child
    cases child

end

end Gfs
