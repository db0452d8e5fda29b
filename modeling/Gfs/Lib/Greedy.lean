import Mathlib

/-!
# The first of every kind

A list is gone through in order of weight: first one element of every kind is picked, and then,
where picks are left, the elements that come first among the others.
-/

namespace Gfs.Lib.Greedy

variable {α κ : Type*} [DecidableEq κ] {key : α → κ}

/-- The elements whose key is none of `seen` and has not come before. -/
def firsts (key : α → κ) : List κ → List α → List α
  | _, [] => []
  | seen, a :: rest =>
      if key a ∈ seen then firsts key seen rest else a :: firsts key (key a :: seen) rest

theorem firsts_sublist (seen : List κ) (l : List α) : (firsts key seen l).Sublist l := by
  induction l generalizing seen with
  | nil => exact List.Sublist.refl _
  | cons a rest ih =>
      unfold firsts
      split
      · exact (ih seen).cons _
      · exact (ih _).cons_cons _

theorem firsts_unseen {seen : List κ} {l : List α} {a : α} (member : a ∈ firsts key seen l) :
    key a ∉ seen := by
  induction l generalizing seen with
  | nil => simp [firsts] at member
  | cons b rest ih =>
      unfold firsts at member
      split at member
      · exact ih member
      · rename_i new
        rcases List.mem_cons.mp member with rfl | later
        · exact new
        · exact fun old => ih later (List.mem_cons_of_mem _ old)

theorem firsts_nodup (seen : List κ) (l : List α) : ((firsts key seen l).map key).Nodup := by
  induction l generalizing seen with
  | nil => exact List.nodup_nil
  | cons a rest ih =>
      unfold firsts
      split
      · exact ih seen
      · rw [List.map_cons]
        refine List.nodup_cons.mpr ⟨fun member => ?_, ih _⟩
        obtain ⟨b, later, same⟩ := List.mem_map.mp member
        exact firsts_unseen later (by simp [same])

theorem firsts_covers {seen : List κ} {l : List α} {a : α} (member : a ∈ l) (new : key a ∉ seen) :
    key a ∈ (firsts key seen l).map key := by
  induction l generalizing seen with
  | nil => cases member
  | cons b rest ih =>
      unfold firsts
      split
      · rename_i old
        rcases List.mem_cons.mp member with rfl | later
        · exact absurd old new
        · exact ih later new
      · rw [List.map_cons]
        by_cases same : key a = key b
        · simp [same]
        · refine List.mem_cons_of_mem _ (ih ?_ (by simp [same, new]))
          exact (List.mem_cons.mp member).resolve_left fun here => same (congrArg key here)

theorem toFinset_firsts (l : List α) :
    ((firsts key [] l).map key).toFinset = (l.map key).toFinset := by
  ext k
  rw [List.mem_toFinset, List.mem_toFinset]
  constructor
  · intro member
    exact ((firsts_sublist [] l).map key).subset member
  · intro member
    obtain ⟨a, there, rfl⟩ := List.mem_map.mp member
    exact firsts_covers there (by simp)

theorem firsts_least {r : α → α → Prop} (refl : ∀ a, r a a) {l : List α} (ordered : l.Pairwise r)
    {seen : List κ} {a b : α} (first : a ∈ firsts key seen l) (member : b ∈ l)
    (same : key b = key a) : r a b := by
  induction l generalizing seen with
  | nil => cases member
  | cons c rest ih =>
      obtain ⟨least, ordered⟩ := List.pairwise_cons.mp ordered
      unfold firsts at first
      split at first
      · rename_i old
        rcases List.mem_cons.mp member with rfl | later
        · exact absurd (same ▸ old) (firsts_unseen first)
        · exact ih ordered first later
      · rcases List.mem_cons.mp first with rfl | after
        · rcases List.mem_cons.mp member with rfl | later
          · exact refl b
          · exact least b later
        · rcases List.mem_cons.mp member with rfl | later
          · exact absurd (by simp [same]) (firsts_unseen after)
          · exact ih ordered after later

/-- The first of every kind and then the other elements, up to the count. -/
def spread [DecidableEq α] (key : α → κ) (count : Nat) (l : List α) : List α :=
  let opening := (firsts key [] l).take count
  opening ++ (l.filter (· ∉ opening)).take (count - opening.length)

section
variable [DecidableEq α] {count : Nat} {l : List α}

theorem spread_subset : ∀ a ∈ spread key count l, a ∈ l := by
  intro a member
  rcases List.mem_append.mp member with opening | other
  · exact (firsts_sublist [] l).subset (List.mem_of_mem_take opening)
  · exact List.mem_of_mem_filter (List.mem_of_mem_take other)

omit [DecidableEq α] in
theorem opening_sublist : ((firsts key [] l).take count).Sublist l :=
  (List.take_sublist _ _).trans (firsts_sublist [] l)

theorem spread_nodup (nodup : l.Nodup) : (spread key count l).Nodup := by
  refine List.nodup_append.mpr ⟨nodup.sublist opening_sublist,
    (nodup.filter _).sublist (List.take_sublist _ _), ?_⟩
  rintro a opening b other rfl
  have apart := (List.mem_filter.mp (List.mem_of_mem_take other)).2
  exact of_decide_eq_true apart opening

theorem opening_perm (nodup : l.Nodup) {opening : List α} (part : opening.Sublist l) :
    l.Perm (opening ++ l.filter (· ∉ opening)) := by
  have both : (opening ++ l.filter (· ∉ opening)).Nodup := by
    refine List.nodup_append.mpr ⟨nodup.sublist part, nodup.filter _, ?_⟩
    rintro a here b other rfl
    exact of_decide_eq_true (List.mem_filter.mp other).2 here
  refine (List.perm_ext_iff_of_nodup nodup both).mpr fun a => ?_
  rw [List.mem_append, List.mem_filter, decide_eq_true_iff]
  constructor
  · intro member
    by_cases here : a ∈ opening
    · exact .inl here
    · exact .inr ⟨member, here⟩
  · rintro (here | ⟨member, -⟩)
    · exact part.subset here
    · exact member

theorem length_spread (nodup : l.Nodup) : (spread key count l).length = min count l.length := by
  have total := (opening_perm nodup (@opening_sublist _ _ _ key count l)).length_eq
  have short := List.length_take_le count (firsts key [] l)
  rw [List.length_append] at total
  unfold spread
  dsimp only
  rw [List.length_append, List.length_take (i := count - _)]
  omega

omit [DecidableEq α] in
theorem card_kinds : (l.map key).toFinset.card = (firsts key [] l).length := by
  rw [← toFinset_firsts, List.toFinset_card_of_nodup (firsts_nodup [] l), List.length_map]

/-- Either every pick is the first of its kind, or every kind is there. -/
theorem spread_cases : (count ≤ (firsts key [] l).length ∧
      spread key count l = (firsts key [] l).take count) ∨
    ((firsts key [] l).length < count ∧ ∃ others, spread key count l = firsts key [] l ++ others ∧
      others <+: l.filter (· ∉ firsts key [] l)) := by
  unfold spread
  rcases Nat.lt_or_ge (firsts key [] l).length count with few | enough
  · rw [List.take_of_length_le few.le]
    exact .inr ⟨few, _, rfl, List.take_prefix _ _⟩
  · dsimp only
    rw [List.length_take, Nat.min_eq_left enough, Nat.sub_self, List.take_zero, List.append_nil]
    exact .inl ⟨enough, rfl⟩

theorem card_spread : ((spread key count l).map key).toFinset.card =
    min count (l.map key).toFinset.card := by
  rw [card_kinds (l := l)]
  rcases @spread_cases _ _ _ key _ count l with ⟨enough, is⟩ | ⟨few, others, is, part⟩
  · have nodup : (((firsts key [] l).take count).map key).Nodup :=
      (firsts_nodup [] l).sublist ((List.take_sublist _ _).map key)
    rw [is, List.toFinset_card_of_nodup nodup, List.length_map, List.length_take]
  · have all : ((spread key count l).map key).toFinset = (l.map key).toFinset := by
      refine Finset.Subset.antisymm ?_ ?_
      · intro k member
        rw [List.mem_toFinset] at member ⊢
        obtain ⟨a, there, rfl⟩ := List.mem_map.mp member
        exact List.mem_map_of_mem (spread_subset a there)
      · rw [← toFinset_firsts, is, List.map_append, List.toFinset_append]
        exact Finset.subset_union_left
    rw [all, card_kinds (l := l), Nat.min_eq_right few.le]

/-- A pick that is the first of its kind among the picks is a least of its kind, and every other
pick is at most as heavy as what is not picked. -/
theorem spread_least {r : α → α → Prop} (refl : ∀ a, r a a) (ordered : l.Pairwise r)
    {before after : List α} {a : α} (picked : spread key count l = before ++ a :: after) :
    (key a ∉ before.map key → ∀ b ∈ l, key b = key a → r a b) ∧
      (key a ∈ before.map key → ∀ b ∈ l, b ∉ spread key count l → r a b) := by
  -- a first of its kind has no pick of its kind before it
  have opening {before after : List α} (split : before ++ a :: after <+: firsts key [] l) :
      (∀ b ∈ l, key b = key a → r a b) ∧ key a ∉ before.map key := by
    have nodup := (@firsts_nodup _ _ _ key [] l).sublist (split.sublist.map key)
    rw [List.map_append, List.map_cons, List.nodup_append] at nodup
    refine ⟨fun b member same => firsts_least refl ordered (split.subset (by simp)) member same, ?_⟩
    exact fun earlier => nodup.2.2 _ earlier _ List.mem_cons_self rfl
  rcases @spread_cases _ _ _ key _ count l with ⟨enough, is⟩ | ⟨few, others, is, part⟩
  · rw [is] at picked
    obtain ⟨least, new⟩ := opening (picked ▸ List.take_prefix count _)
    exact ⟨fun _ => least, fun old => absurd old new⟩
  · -- and every kind is there before the others
    have other (earlier : List α) (split : others = earlier ++ a :: after) :
        key a ∈ (firsts key [] l).map key ∧ ∀ b ∈ l, b ∉ spread key count l → r a b := by
      have there : a ∈ l := by
        refine List.mem_of_mem_filter (part.subset ?_)
        simp [split]
      refine ⟨firsts_covers there (by simp), fun b member absent => ?_⟩
      rw [is, List.mem_append, not_or] at absent
      obtain ⟨rest, whole⟩ := part
      have listed : b ∈ others ++ rest := by
        rw [whole]
        exact List.mem_filter.mpr ⟨member, by simp [absent.1]⟩
      have later := (List.mem_append.mp listed).resolve_left absent.2
      have inOrder : (others ++ rest).Pairwise r := by
        rw [whole]
        exact ordered.filter _
      exact (List.pairwise_append.mp inOrder).2.2 a (by simp [split]) b later
    rw [is] at picked
    rcases List.append_eq_append_iff.mp picked with ⟨earlier, rfl, split⟩ | ⟨rest, split, last⟩
    · obtain ⟨old, least⟩ := other earlier split
      refine ⟨fun new => absurd ?_ new, fun _ => least⟩
      rw [List.map_append]
      exact List.mem_append_left _ old
    · cases rest with
      | nil =>
          obtain ⟨old, least⟩ := other [] last.symm
          rw [List.append_nil] at split
          exact ⟨fun new => absurd (split ▸ old) new, fun _ => least⟩
      | cons b rest =>
          obtain rfl := List.head_eq_of_cons_eq last
          obtain ⟨least, new⟩ := opening ⟨[], by rw [split, List.append_nil]⟩
          exact ⟨fun _ => least, fun old => absurd old new⟩

end

end Gfs.Lib.Greedy
