import Gfs.Lib.Overlay

/-!
# Arrays in pages

An array kept as a list of pages of one size, where a page may end early: what is missing reads as
the default. `Stands` says which array the pages stand for, `has` which of its positions are there.
Writing inside one page writes to the array; reading on from a position stops at the first one that
is not there.
-/

namespace Gfs.Lib.Pages
open Overlay

variable {α : Type*} {z : α} {size : Nat}

def get (z : α) (size : Nat) (pages : List (List α)) (p : Nat) : α :=
  (pages.getD (p / size) []).getD (p % size) z

def has (size : Nat) (pages : List (List α)) (p : Nat) : Bool :=
  p % size < (pages.getD (p / size) []).length

def extent (size : Nat) (pages : List (List α)) : Nat :=
  (pages.length - 1) * size + (pages.getD (pages.length - 1) []).length

/-- Only the first page can be both the last one and empty. -/
structure Stands (z : α) (size : Nat) (pages : List (List α)) (data : List α) : Prop where
  short : ∀ page ∈ pages, page.length ≤ size
  last : 1 < pages.length → pages.getD (pages.length - 1) [] ≠ []
  length : data.length = extent size pages
  same : ∀ p, data.getD p z = get z size pages p

def grown (pages : List (List α)) (index : Nat) : List (List α) :=
  pages ++ List.replicate (index + 1 - pages.length) []

def wrote (z : α) (pages : List (List α)) (index offset : Nat) (new : List α) : List (List α) :=
  (grown pages index).set index (overlay z ((grown pages index).getD index []) offset new)

/-- A range has a position in the page of `p`, at `p` or behind it. -/
def reaches (size start stop p : Nat) : Bool := max p start < min ((p / size + 1) * size) stop

theorem reaches_append {start mid stop p : Nat} (before : start ≤ mid) (after : mid ≤ stop) :
    reaches size start stop p = (reaches size start mid p || reaches size mid stop p) := by
  unfold reaches
  generalize (p / size + 1) * size = page
  rw [← Bool.decide_or, decide_eq_decide]
  omega

theorem reaches_page {start n p : Nat} (some : 0 < n) (inside : start % size + n ≤ size) :
    reaches size start (start + n) p = decide (p / size = start / size ∧ p % size < start % size + n) := by
  have split := Nat.div_add_mod' p size
  have split' := Nat.div_add_mod' start size
  have positive : 0 < size := by omega
  have short := Nat.mod_lt p positive
  unfold reaches
  rw [decide_eq_decide, Nat.add_one_mul]
  rcases Nat.lt_trichotomy (p / size) (start / size) with before | same | after
  · have apart : (p / size + 1) * size ≤ start / size * size := Nat.mul_le_mul_right _ before
    rw [Nat.add_one_mul] at apart
    omega
  · rw [same] at split ⊢
    omega
  · have apart : (start / size + 1) * size ≤ p / size * size := Nat.mul_le_mul_right _ after
    rw [Nat.add_one_mul] at apart
    omega

section
variable {pages : List (List α)} {data new : List α} {index offset p q : Nat}

theorem getD_grown : (grown pages index).getD q [] = pages.getD q [] := by
  unfold grown
  by_cases inside : q < pages.length
  · rw [List.getD_append _ _ _ _ inside]
  · have beyond := Nat.le_of_not_lt inside
    rw [List.getD_append_right _ _ _ _ beyond, getD_beyond beyond]
    by_cases filled : q - pages.length < index + 1 - pages.length
    · rw [List.getD_replicate _ filled]
    · apply getD_beyond
      rw [List.length_replicate]
      exact Nat.le_of_not_lt filled

theorem length_grown : (grown pages index).length = max pages.length (index + 1) := by
  simp only [grown, List.length_append, List.length_replicate]
  omega

theorem length_wrote : (wrote z pages index offset new).length = max pages.length (index + 1) := by
  rw [wrote, List.length_set, length_grown]

theorem getD_wrote : (wrote z pages index offset new).getD q [] =
    if q = index then overlay z (pages.getD index []) offset new else pages.getD q [] := by
  have inside : index < (grown pages index).length := by
    rw [length_grown]
    omega
  unfold wrote
  by_cases same : q = index
  · subst same
    rw [if_pos rfl, List.getD_eq_getElem?_getD, List.getElem?_set_self inside, Option.getD_some,
      getD_grown]
  · rw [if_neg same, List.getD_eq_getElem?_getD, List.getElem?_set_ne (Ne.symm same),
      ← List.getD_eq_getElem?_getD, getD_grown]

theorem has_wrote (some : new ≠ []) : has size (wrote z pages index offset new) p =
    (has size pages p || decide (p / size = index ∧ p % size < offset + new.length)) := by
  unfold has
  rw [getD_wrote]
  by_cases same : p / size = index
  · simp only [same, if_true, length_overlay some, true_and]
    grind
  · simp [same]

theorem get_wrote (inside : offset + new.length ≤ size) :
    get z size (wrote z pages index offset new) p =
      if index * size + offset ≤ p ∧ p < index * size + offset + new.length then
        new.getD (p - (index * size + offset)) z
      else get z size pages p := by
  have split := Nat.div_add_mod' p size
  unfold get
  rw [getD_wrote]
  by_cases same : p / size = index
  · subst same
    rw [if_pos rfl, getD_overlay]
    have here : (offset ≤ p % size ∧ p % size < offset + new.length) ↔
        (p / size * size + offset ≤ p ∧ p < p / size * size + offset + new.length) := by omega
    have place : p % size - offset = p - (p / size * size + offset) := by omega
    simp only [here, place]
  · rw [if_neg same, if_neg]
    rintro ⟨above, below⟩
    refine same (Nat.div_eq_of_lt_le ?_ ?_)
    · omega
    · rw [Nat.add_one_mul]
      omega

theorem Stands.short_getD (stands : Stands z size pages data) (q : Nat) :
    (pages.getD q []).length ≤ size := by
  by_cases inside : q < pages.length
  · rw [List.getD_eq_getElem _ _ inside]
    exact stands.short _ (List.getElem_mem inside)
  · rw [getD_beyond (Nat.le_of_not_lt inside)]
    exact Nat.zero_le _

theorem Stands.length_le (stands : Stands z size pages data) : data.length ≤ pages.length * size := by
  have short := stands.short_getD (pages.length - 1)
  rw [stands.length, extent]
  cases count : pages.length with
  | zero => simp [List.length_eq_zero_iff.mp count]
  | succ n =>
      rw [count] at short
      rw [Nat.add_one_mul]
      exact Nat.add_le_add_left short _

theorem Stands.pages_le (stands : Stands z size pages data) (positive : 0 < size) :
    pages.length ≤ max 1 data.length := by
  by_cases many : 1 < pages.length
  · have some := List.length_pos_iff.mpr (stands.last many)
    have before : pages.length - 1 ≤ (pages.length - 1) * size := Nat.le_mul_of_pos_right _ positive
    rw [stands.length, extent]
    omega
  · omega

theorem Stands.write (stands : Stands z size pages data) (some : new ≠ [])
    (inside : offset + new.length ≤ size) :
    Stands z size (wrote z pages index offset new)
      (overlay z data (index * size + offset) new) := by
  have positive := List.length_pos_iff.mpr some
  have lengths : (overlay z (pages.getD index []) offset new).length =
      max (pages.getD index []).length (offset + new.length) := length_overlay some
  refine ⟨fun page member => ?_, fun many => ?_, ?_, fun p => ?_⟩
  · obtain ⟨q, here, rfl⟩ := List.getElem_of_mem member
    rw [← List.getD_eq_getElem _ [] here, getD_wrote]
    split
    · rw [lengths]
      exact Nat.max_le.mpr ⟨stands.short_getD index, inside⟩
    · exact stands.short_getD q
  · rw [length_wrote] at many ⊢
    rw [getD_wrote]
    split
    · apply List.ne_nil_of_length_pos
      omega
    · have later : index + 1 < pages.length := by omega
      rw [Nat.max_eq_left (Nat.le_of_lt later)]
      exact stands.last (by omega)
  · have whole := stands.length_le
    rw [length_overlay some, extent, length_wrote, getD_wrote]
    by_cases beyond : pages.length ≤ index + 1
    · rw [Nat.max_eq_right beyond, Nat.add_sub_cancel, if_pos rfl, lengths]
      by_cases last : pages.length = index + 1
      · have ends := stands.length
        rw [extent, last, Nat.add_sub_cancel] at ends
        omega
      · have after : pages.length * size ≤ index * size := Nat.mul_le_mul_right _ (by omega)
        rw [getD_beyond (by omega : pages.length ≤ index)]
        simp only [List.length_nil]
        omega
    · have later := Nat.lt_of_not_le beyond
      have before : (index + 1) * size ≤ (pages.length - 1) * size :=
        Nat.mul_le_mul_right _ (by omega)
      have ends := stands.length
      rw [extent] at ends
      rw [Nat.add_one_mul] at before
      rw [Nat.max_eq_left (Nat.le_of_lt later), if_neg (by omega), ← ends]
      omega
  · rw [getD_overlay, get_wrote inside, stands.same]

theorem Stands.writeAt (stands : Stands z size pages data) (start : Nat) (some : new ≠ [])
    (inside : start % size + new.length ≤ size) :
    Stands z size (wrote z pages (start / size) (start % size) new) (overlay z data start new) ∧
      ∀ p, has size (wrote z pages (start / size) (start % size) new) p =
        (has size pages p || reaches size start (start + new.length) p) := by
  constructor
  · have written : Stands z size (wrote z pages (start / size) (start % size) new)
        (overlay z data (start / size * size + start % size) new) := stands.write some inside
    rwa [Nat.div_add_mod'] at written
  · intro p
    rw [has_wrote some, reaches_page (List.length_pos_iff.mpr some) inside]

theorem reaches_nothing {start p : Nat} : reaches size start start p = false := by
  unfold reaches
  rw [decide_eq_false]
  omega

theorem grown_of_lt (inside : index < pages.length) : grown pages index = pages := by
  have none : index + 1 - pages.length = 0 := by omega
  rw [grown, none, List.replicate_zero, List.append_nil]

theorem Stands.appendLast (stands : Stands z size pages data) (some : pages ≠ [])
    (room : (pages.getD (pages.length - 1) []).length + new.length ≤ size) :
    Stands z size (pages.set (pages.length - 1) (pages.getD (pages.length - 1) [] ++ new)) (data ++ new) ∧
      ∀ p, has size (pages.set (pages.length - 1) (pages.getD (pages.length - 1) [] ++ new)) p =
        (has size pages p || reaches size data.length (data.length + new.length) p) := by
  have inside : pages.length - 1 < pages.length := Nat.sub_one_lt (List.length_eq_zero_iff.not.mpr some)
  by_cases nothing : new = []
  · subst nothing
    rw [List.append_nil, List.append_nil, List.getD_eq_getElem _ _ inside, List.set_getElem_self]
    refine ⟨stands, fun p => ?_⟩
    rw [List.length_nil, Nat.add_zero, reaches_nothing, Bool.or_false]
  · have positive := List.length_pos_iff.mpr nothing
    have ends := stands.length
    rw [extent] at ends
    have page : data.length / size = pages.length - 1 := by
      rw [ends, Nat.mul_comm, Nat.mul_add_div (by omega), Nat.div_eq_of_lt (by omega), Nat.add_zero]
    have place : data.length % size = (pages.getD (pages.length - 1) []).length := by
      rw [ends, Nat.mul_comm, Nat.mul_add_mod, Nat.mod_eq_of_lt (by omega)]
    have written := stands.writeAt data.length nothing (place ▸ room)
    rwa [wrote, page, place, grown_of_lt inside, overlay_end, overlay_end] at written

theorem Stands.appendPage (stands : Stands z size pages data) (full : data.length = pages.length * size)
    (positive : 0 < size) (some : new ≠ []) (room : new.length ≤ size) :
    Stands z size (pages ++ [new]) (data ++ new) ∧
      ∀ p, has size (pages ++ [new]) p =
        (has size pages p || reaches size data.length (data.length + new.length) p) := by
  have page : data.length / size = pages.length := by
    rw [full, Nat.mul_div_cancel _ positive]
  have place : data.length % size = 0 := by
    rw [full, Nat.mul_mod_left]
  have written := stands.writeAt data.length some (by omega)
  have grows : grown pages pages.length = pages ++ [[]] := by
    rw [grown, Nat.add_sub_cancel_left, List.replicate_one]
  have placed : overlay z ([] : List α) 0 new = new := by
    have ends : overlay z ([] : List α) ([] : List α).length new = [] ++ new := overlay_end
    rwa [List.nil_append] at ends
  have pad : (pages ++ [[]]).getD pages.length [] = [] := by
    rw [List.getD_append_right _ _ _ _ le_rfl, Nat.sub_self]
    rfl
  have set : (pages ++ [[]]).set pages.length new = pages ++ [new] := by
    rw [List.set_append_right _ _ le_rfl, Nat.sub_self]
    rfl
  rwa [wrote, page, place, grows, pad, placed, set, overlay_end] at written

theorem Stands.nil : Stands z size [] [] :=
  ⟨nofun, fun many => absurd many (Nat.not_lt_zero _), by simp [extent], fun _ => rfl⟩

theorem Stands.first : Stands z size [[]] [] := by
  refine ⟨fun page member => ?_, fun many => absurd many (Nat.lt_irrefl 1), by simp [extent],
    fun p => ?_⟩
  · rw [List.mem_singleton.mp member]
    exact Nat.zero_le _
  · unfold get
    cases p / size <;> rfl

/-! ## Reading -/

/-- The positions of a range up to the first one that is not there. -/
def readable (size : Nat) (pages : List (List α)) (p count : Nat) : List Nat :=
  (List.range' p count).takeWhile (has size pages)

/-- What a reader gets that stops at the first short page. -/
def readFrom (z : α) (size : Nat) (pages : List (List α)) (p count : Nat) : List α :=
  (readable size pages p count).map (get z size pages)

theorem readFrom_page {count : Nat} (inside : offset + count ≤ size) :
    readFrom z size pages (index * size + offset) count =
      ((pages.getD index []).drop offset).take count := by
  induction count generalizing offset with
  | zero => rfl
  | succ count ih =>
      have positive : 0 < size := by omega
      have page : (index * size + offset) / size = index := by
        rw [Nat.mul_comm, Nat.mul_add_div positive, Nat.div_eq_of_lt (by omega), Nat.add_zero]
      have place : (index * size + offset) % size = offset := by
        rw [Nat.mul_comm, Nat.mul_add_mod, Nat.mod_eq_of_lt (by omega)]
      have there : has size pages (index * size + offset) =
          decide (offset < (pages.getD index []).length) := by
        rw [has, page, place]
      unfold readFrom readable at ih ⊢
      rw [List.range'_succ, List.takeWhile_cons, there]
      by_cases before : offset < (pages.getD index []).length
      · have first : get z size pages (index * size + offset) = (pages.getD index [])[offset] := by
          rw [get, page, place, List.getD_eq_getElem _ _ before]
        rw [List.drop_eq_getElem_cons before, List.take_succ_cons, decide_eq_true before, if_pos rfl,
          List.map_cons, first, Nat.add_assoc, ih (by omega)]
      · rw [decide_eq_false before, List.drop_eq_nil_of_le (Nat.le_of_not_lt before)]
        rfl

theorem length_readFrom_le {count : Nat} : (readFrom z size pages p count).length ≤ count := by
  rw [readFrom, List.length_map]
  exact (List.takeWhile_sublist _).length_le.trans_eq List.length_range'

theorem readFrom_append {count more : Nat}
    (all : (readFrom z size pages p count).length = count) :
    readFrom z size pages p (count + more) =
      readFrom z size pages p count ++ readFrom z size pages (p + count) more := by
  unfold readFrom readable at all ⊢
  rw [List.length_map] at all
  have whole : (List.range' p count).takeWhile (has size pages) = List.range' p count :=
    (List.takeWhile_prefix _).eq_of_length (all.trans List.length_range'.symm)
  rw [← List.range'_append_1, List.takeWhile_append, if_pos (by rw [whole]), List.map_append, whole]

theorem readFrom_short {count more : Nat} (cut : (readFrom z size pages p count).length < count) :
    readFrom z size pages p (count + more) = readFrom z size pages p count := by
  unfold readFrom readable at cut ⊢
  rw [List.length_map] at cut
  rw [← List.range'_append_1, List.takeWhile_append, if_neg]
  rw [List.length_range']
  exact Nat.ne_of_lt cut

theorem Stands.has_lt (stands : Stands z size pages data) (there : has size pages p = true) :
    p < data.length := by
  have inside := of_decide_eq_true there
  have split := Nat.div_add_mod' p size
  have known : p / size < pages.length := by
    by_contra beyond
    rw [getD_beyond (Nat.le_of_not_lt beyond)] at inside
    exact absurd inside (Nat.not_lt_zero _)
  have short := stands.short_getD (p / size)
  rw [stands.length, extent]
  by_cases last : p / size = pages.length - 1
  · rw [← last]
    omega
  · have before : (p / size + 1) * size ≤ (pages.length - 1) * size :=
      Nat.mul_le_mul_right _ (by omega)
    rw [Nat.add_one_mul] at before
    omega

theorem Stands.readFrom_beyond {count : Nat} (stands : Stands z size pages data)
    (beyond : data.length ≤ p) : readFrom z size pages p count = [] := by
  cases count with
  | zero => rfl
  | succ count =>
      rw [readFrom, readable, List.range'_succ, List.takeWhile_cons, if_neg]
      · rfl
      · exact fun there => absurd (stands.has_lt there) (Nat.not_lt.mpr beyond)

theorem Stands.readFrom_all {count : Nat} (stands : Stands z size pages data)
    (inside : p + count ≤ data.length)
    (all : ∀ q, p ≤ q → q < p + count → has size pages q = true) :
    readFrom z size pages p count = (data.drop p).take count := by
  have whole : (List.range' p count).takeWhile (has size pages) = List.range' p count := by
    apply List.takeWhile_eq_self_iff.mpr
    intro q member
    obtain ⟨above, below⟩ := List.mem_range'_1.mp member
    exact all q above below
  unfold readFrom readable
  rw [whole]
  apply List.ext_getElem
  · simp only [List.length_map, List.length_range', List.length_take, List.length_drop]
    omega
  · intro i here _
    rw [List.length_map, List.length_range'] at here
    rw [List.getElem_map, List.getElem_range', List.getElem_take, List.getElem_drop, Nat.one_mul,
      ← stands.same, List.getD_eq_getElem]

theorem Stands.readFrom_eq {count : Nat} (stands : Stands z size pages data) :
    readFrom z size pages p count = (data.drop p).take (readable size pages p count).length := by
  have part : readable size pages p count <+: List.range' p count := List.takeWhile_prefix _
  have place : ∀ i (here : i < (readable size pages p count).length),
      (readable size pages p count)[i] = p + i := by
    intro i here
    rw [part.getElem here, List.getElem_range', Nat.one_mul]
  have known : ∀ i < (readable size pages p count).length, p + i < data.length := by
    intro i here
    have member := List.getElem_mem here
    rw [place i here] at member
    exact stands.has_lt (List.mem_takeWhile_imp member)
  apply List.ext_getElem
  · rw [readFrom, List.length_map, List.length_take, List.length_drop]
    cases count' : (readable size pages p count).length with
    | zero => omega
    | succ n =>
        have last := known n (by omega)
        omega
  · intro i here _
    rw [readFrom, List.length_map] at here
    have inside := known i here
    simp only [readFrom, List.getElem_map, place, List.getElem_take, List.getElem_drop, ← stands.same]
    exact List.getD_eq_getElem _ _ inside

/-- A read gets its part of the array just when all of it is there. -/
theorem Stands.readFrom_iff {count : Nat} (stands : Stands z size pages data) :
    readFrom z size pages p count = (data.drop p).take count ↔
      ∀ q, p ≤ q → q < min (p + count) data.length → has size pages q = true := by
  constructor
  · intro same q above below
    have lengths := congrArg List.length same
    rw [readFrom, readable, List.length_map, List.length_take, List.length_drop] at lengths
    have place : q - p < ((List.range' p count).takeWhile (has size pages)).length := by omega
    have member := List.getElem_mem place
    rw [(List.takeWhile_prefix _).getElem place, List.getElem_range', Nat.one_mul,
      Nat.add_sub_cancel' above] at member
    exact List.mem_takeWhile_imp member
  · intro all
    by_cases beyond : data.length ≤ p
    · rw [stands.readFrom_beyond beyond, List.drop_eq_nil_of_le beyond, List.take_nil]
    · by_cases inside : p + count ≤ data.length
      · exact stands.readFrom_all inside fun q above below => all q above (by omega)
      · have upTo : p + (data.length - p) = data.length := by omega
        have first := stands.readFrom_all upTo.le fun q above below => all q above (by omega)
        have length : (readFrom z size pages p (data.length - p)).length = data.length - p := by
          rw [first, List.length_take, List.length_drop]
          exact Nat.min_self _
        have cut : count = data.length - p + (count - (data.length - p)) := by omega
        have whole : (data.drop p).length ≤ data.length - p := List.length_drop.le
        rw [cut, readFrom_append length, upTo, stands.readFrom_beyond le_rfl, List.append_nil, first,
          List.take_of_length_le whole, ← cut, List.take_of_length_le (whole.trans (by omega))]

end

end Gfs.Lib.Pages
