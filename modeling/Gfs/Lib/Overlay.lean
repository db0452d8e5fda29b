import Mathlib

/-!
# Sparse sequences

A list read with a default beyond its end, as a file with holes is. `overlay` writes at any offset
and fills the gap with the default; reading afterwards is reading the new part inside it and the old
list outside. `page` is one of the pages of a fixed size that a list falls into.
-/

namespace Gfs.Lib.Overlay

variable {α β : Type*} {z : α}

def overlay (z : α) (data : List α) (offset : Nat) (new : List α) : List α :=
  let base := data ++ List.replicate (offset - data.length) z
  base.take offset ++ new ++ base.drop (offset + new.length)

def resize (z : α) (size : Nat) (data : List α) : List α :=
  (data ++ List.replicate (size - data.length) z).take size

def page (size : Nat) (data : List α) (index : Nat) : List α :=
  (data.drop (index * size)).take size

section
variable {data data' new : List α} {offset size index p : Nat}

theorem ext_getD (length : data.length = data'.length)
    (same : ∀ p < data.length, data.getD p z = data'.getD p z) : data = data' := by
  refine List.ext_getElem length fun p inside inside' => ?_
  have here := same p inside
  rwa [List.getD_eq_getElem _ _ inside, List.getD_eq_getElem _ _ inside'] at here

theorem getD_beyond (beyond : data.length ≤ p) : data.getD p z = z :=
  List.getD_eq_default _ _ beyond

theorem getD_append_replicate {n : Nat} : (data ++ List.replicate n z).getD p z = data.getD p z := by
  by_cases inside : p < data.length
  · rw [List.getD_append _ _ _ _ inside]
  · rw [List.getD_append_right _ _ _ _ (Nat.le_of_not_lt inside), getD_beyond (Nat.le_of_not_lt inside)]
    by_cases filled : p - data.length < n
    · rw [List.getD_replicate _ filled]
    · exact getD_beyond (by rw [List.length_replicate]; exact Nat.le_of_not_lt filled)

theorem getD_take : (data.take size).getD p z = if p < size then data.getD p z else z := by
  rw [List.getD_eq_getElem?_getD, List.getElem?_take]
  split
  · rw [List.getD_eq_getElem?_getD]
  · rfl

theorem getD_drop : (data.drop size).getD p z = data.getD (size + p) z := by
  rw [List.getD_eq_getElem?_getD, List.getElem?_drop, List.getD_eq_getElem?_getD]

theorem length_overlay (some : new ≠ []) :
    (overlay z data offset new).length = max data.length (offset + new.length) := by
  have positive := List.length_pos_iff.mpr some
  simp only [overlay, List.length_append, List.length_take, List.length_drop, List.length_replicate]
  omega

theorem getD_overlay : (overlay z data offset new).getD p z =
    if offset ≤ p ∧ p < offset + new.length then new.getD (p - offset) z else data.getD p z := by
  have filled : offset ≤ (data ++ List.replicate (offset - data.length) z).length := by
    rw [List.length_append, List.length_replicate]
    omega
  unfold overlay
  dsimp only
  rw [List.append_assoc]
  by_cases before : p < offset
  · rw [if_neg (by omega), List.getD_append _ _ _ _ (by rw [List.length_take]; omega), getD_take,
      if_pos before, getD_append_replicate]
  · have head : ((data ++ List.replicate (offset - data.length) z).take offset).length = offset := by
      rw [List.length_take]
      exact Nat.min_eq_left filled
    rw [List.getD_append_right _ _ _ _ (by rw [head]; exact Nat.le_of_not_lt before), head]
    by_cases inside : p - offset < new.length
    · rw [if_pos (by omega), List.getD_append _ _ _ _ inside]
    · rw [if_neg (by omega), List.getD_append_right _ _ _ _ (Nat.le_of_not_lt inside), getD_drop,
        getD_append_replicate]
      congr 1
      omega

theorem overlay_end : overlay z data data.length new = data ++ new := by
  unfold overlay
  rw [Nat.sub_self, List.replicate_zero, List.append_nil]
  dsimp only
  rw [List.take_length,
    List.drop_eq_nil_of_le (Nat.le_add_right _ _), List.append_nil]

theorem overlay_append {more : List α} (some : new ≠ []) (some' : more ≠ []) :
    overlay z (overlay z data offset new) (offset + new.length) more =
      overlay z data offset (new ++ more) := by
  have positive := List.length_pos_iff.mpr some
  have length : (overlay z (overlay z data offset new) (offset + new.length) more).length = _ :=
    length_overlay some'
  have length' : (overlay z data offset (new ++ more)).length = _ :=
    length_overlay (List.append_ne_nil_of_left_ne_nil some more)
  rw [length_overlay some] at length
  rw [List.length_append] at length'
  refine ext_getD (z := z) (by omega) fun p _ => ?_
  simp only [getD_overlay, List.length_append]
  by_cases first : offset ≤ p ∧ p < offset + new.length
  · rw [if_neg (by omega), if_pos first, if_pos (by omega), List.getD_append _ _ _ _ (by omega)]
  · by_cases second : offset + new.length ≤ p ∧ p < offset + new.length + more.length
    · rw [if_pos second, if_pos (by omega), List.getD_append_right _ _ _ _ (by omega)]
      congr 1
      omega
    · rw [if_neg second, if_neg first, if_neg (by omega)]

theorem length_resize : (resize z size data).length = size := by
  simp only [resize, List.length_take, List.length_append, List.length_replicate]
  omega

theorem getD_resize : (resize z size data).getD p z = if p < size then data.getD p z else z := by
  rw [resize, getD_take, getD_append_replicate]

/-! ## Pages -/

theorem length_page : (page size data index).length = min size (data.length - index * size) := by
  rw [page, List.length_take, List.length_drop]

theorem getD_page : (page size data index).getD p z =
    if p < size then data.getD (index * size + p) z else z := by
  rw [page, getD_take, getD_drop]

theorem page_congr (z : α) (length : data.length = data'.length)
    (same : ∀ p, index * size ≤ p → p < (index + 1) * size → data.getD p z = data'.getD p z) :
    page size data index = page size data' index := by
  refine ext_getD (z := z) (by rw [length_page, length_page, length]) fun p inside => ?_
  rw [length_page] at inside
  have inPage : p < size := by omega
  rw [getD_page, getD_page, if_pos inPage, if_pos inPage]
  apply same
  · exact Nat.le_add_right _ _
  · rw [Nat.add_one_mul]
    omega

theorem page_eq (z : α) (same : page size data index = page size data' index)
    (above : index * size ≤ p) (below : p < (index + 1) * size) : data.getD p z = data'.getD p z := by
  rw [Nat.add_one_mul] at below
  have here := congrArg (·.getD (p - index * size) z) same
  simp only [getD_page] at here
  rwa [if_pos (by omega), if_pos (by omega), Nat.add_sub_cancel' above] at here

/-- The pages of a longer list that begins with the shorter one, up to where they differ. -/
theorem page_full (z : α) (full : (index + 1) * size ≤ data.length)
    (full' : (index + 1) * size ≤ data'.length)
    (same : ∀ p, index * size ≤ p → p < (index + 1) * size → data.getD p z = data'.getD p z) :
    page size data index = page size data' index := by
  rw [Nat.add_one_mul] at full full'
  refine ext_getD (z := z) (by rw [length_page, length_page]; omega) fun p inside => ?_
  rw [length_page] at inside
  have inPage : p < size := by omega
  rw [getD_page, getD_page, if_pos inPage, if_pos inPage]
  apply same
  · exact Nat.le_add_right _ _
  · rw [Nat.add_one_mul]
    omega

/-! ## Updates one by one -/

theorem length_foldl_set (f : Nat → α) (indices : List Nat) (data : List α) :
    (indices.foldl (fun data i => data.set i (f i)) data).length = data.length := by
  induction indices generalizing data with
  | nil => rfl
  | cons i indices ih => exact (ih _).trans List.length_set

theorem getElem?_foldl_set (f : Nat → α) (indices : List Nat) (data : List α) :
    (indices.foldl (fun data i => data.set i (f i)) data)[p]? =
      if p ∈ indices ∧ p < data.length then some (f p) else data[p]? := by
  induction indices generalizing data with
  | nil => simp
  | cons i indices ih =>
      rw [List.foldl_cons, ih, List.length_set, List.getElem?_set]
      by_cases same : i = p
      · subst same
        by_cases inside : i < data.length
        · simp [inside]
        · simp [inside]
      · simp [same, Ne.symm same]

theorem length_flatMap_width {width : Nat} {f : β → List α} (each : ∀ x, (f x).length = width)
    (xs : List β) : (xs.flatMap f).length = width * xs.length := by
  induction xs with
  | nil => rfl
  | cons x xs ih =>
      rw [List.flatMap_cons, List.length_append, ih, each, List.length_cons, Nat.mul_add_one,
        Nat.add_comm]

theorem getD_flatMap_width {width : Nat} {f : β → List α} (each : ∀ x, (f x).length = width)
    {xs : List β} {i j : Nat} {x : β} (found : xs[i]? = some x) (inside : j < width) :
    (xs.flatMap f).getD (width * i + j) z = (f x).getD j z := by
  induction xs generalizing i with
  | nil => cases found
  | cons y xs ih =>
      rw [List.flatMap_cons]
      cases i with
      | zero =>
          cases found
          rw [Nat.mul_zero, Nat.zero_add, List.getD_append _ _ _ _ (by rw [each]; exact inside)]
      | succ i =>
          have skip : width * (i + 1) + j = width + (width * i + j) := by
            rw [Nat.mul_add_one, Nat.add_comm (width * i) width, Nat.add_assoc]
          rw [skip, List.getD_append_right _ _ _ _ (by rw [each]; exact Nat.le_add_right _ _), each,
            Nat.add_sub_cancel_left]
          exact ih found

end

end Gfs.Lib.Overlay
