import Mathlib

/-!
# Ordered maps

Lookups after many changes, the part of a map from a key on, and sums over the entries of a map.
-/

namespace Gfs.Lib.Maps
open Std

variable {α β γ : Type*} [Ord α] [TransOrd α] [LawfulEqOrd α]

theorem getElem?_insert [DecidableEq α] {m : ExtTreeMap α β} {k k' : α} {v : β} :
    (m.insert k v)[k']? = if k = k' then some v else m[k']? := by
  simp [ExtTreeMap.getElem?_insert]

theorem getElem?_erase [DecidableEq α] {m : ExtTreeMap α β} {k k' : α} :
    (m.erase k)[k']? = if k = k' then none else m[k']? := by
  simp [ExtTreeMap.getElem?_erase]

theorem getElem?_modify [DecidableEq α] {m : ExtTreeMap α β} {f : β → β} {k k' : α} :
    (m.modify k f)[k']? = if k = k' then m[k']?.map f else m[k']? := by
  rw [ExtTreeMap.getElem?_modify]
  by_cases same : k = k'
  · subst same
    simp
  · simp [same]

theorem getElem?_foldl_erase (keys : List α) (m : ExtTreeMap α β) (k : α) :
    (k ∈ keys → (keys.foldl (fun m key => m.erase key) m)[k]? = none) ∧
      (k ∉ keys → (keys.foldl (fun m key => m.erase key) m)[k]? = m[k]?) := by
  induction keys generalizing m with
  | nil => simp
  | cons key keys ih =>
      obtain ⟨gone, kept⟩ := ih (m.erase key)
      rw [List.foldl_cons, List.mem_cons]
      refine ⟨fun member => ?_, fun absent => ?_⟩
      · by_cases later : k ∈ keys
        · exact gone later
        · obtain rfl := member.resolve_right later
          rw [kept later, ExtTreeMap.getElem?_erase_self]
      · obtain ⟨different, later⟩ := not_or.mp absent
        rw [kept later, ExtTreeMap.getElem?_erase, if_neg]
        exact fun same => different (LawfulEqOrd.eq_of_compare same).symm

theorem nodup_toList (m : ExtTreeMap α β) : (m.toList.map (·.1)).Nodup := by
  have distinct := ExtTreeMap.distinct_keys_toList (t := m)
  rw [List.Nodup, List.pairwise_map]
  exact distinct.imp fun different same => different (by rw [same, compare_self])

theorem mem_foldl_insertIfNew {ε : Type*} (key : ε → α) (val : ε → β) (entries : List ε)
    (m : ExtTreeMap α β) (k : α) :
    k ∈ entries.foldl (fun m entry => m.insertIfNew (key entry) (val entry)) m ↔
      k ∈ m ∨ k ∈ entries.map key := by
  induction entries generalizing m with
  | nil => simp
  | cons entry entries ih =>
      rw [List.foldl_cons, ih, ExtTreeMap.mem_insertIfNew, LawfulEqOrd.compare_eq_iff_eq,
        List.map_cons, List.mem_cons]
      constructor
      · rintro ((rfl | there) | later)
        · exact .inr (.inl rfl)
        · exact .inl there
        · exact .inr (.inr later)
      · rintro (there | rfl | later)
        · exact .inl (.inr there)
        · exact .inl (.inl rfl)
        · exact .inr later

theorem getElem?_foldl_insertIfNew [DecidableEq α] {ε : Type*} (key : ε → α) (val : ε → β)
    {entries : List ε} (nodup : (entries.map key).Nodup) (m : ExtTreeMap α β) (k : α) :
    (∀ entry ∈ entries, key entry = k → m[k]? = none →
      (entries.foldl (fun m entry => m.insertIfNew (key entry) (val entry)) m)[k]? =
        some (val entry)) ∧
      (k ∈ m ∨ k ∉ entries.map key →
        (entries.foldl (fun m entry => m.insertIfNew (key entry) (val entry)) m)[k]? = m[k]?) := by
  induction entries generalizing m with
  | nil => simp
  | cons entry entries ih =>
      obtain ⟨once, nodup⟩ := List.nodup_cons.mp nodup
      obtain ⟨added, kept⟩ := ih nodup (m.insertIfNew (key entry) (val entry))
      rw [List.foldl_cons, List.map_cons, List.mem_cons]
      refine ⟨fun other member same absent => ?_, fun settled => ?_⟩
      · have fresh : k ∉ m := fun there => by
          simp [ExtTreeMap.mem_iff_isSome_getElem?, absent] at there
        rcases List.mem_cons.mp member with rfl | later
        · subst same
          rw [kept (.inr once), ExtTreeMap.getElem?_insertIfNew]
          simp [fresh]
        · have different : key entry ≠ k := by
            rintro rfl
            exact once (List.mem_map.mpr ⟨other, later, same⟩)
          refine added other later same ?_
          rw [ExtTreeMap.getElem?_insertIfNew]
          simp [different, absent]
      · have unchanged : (m.insertIfNew (key entry) (val entry))[k]? = m[k]? := by
          rw [ExtTreeMap.getElem?_insertIfNew, if_neg]
          rintro ⟨same, absent⟩
          have same := LawfulEqOrd.eq_of_compare same
          rcases settled with there | different
          · exact absent (same ▸ there)
          · exact different (.inl same.symm)
        rw [kept ?_, unchanged]
        rcases settled with there | different
        · exact .inl (ExtTreeMap.mem_insertIfNew.mpr (.inr there))
        · exact .inr fun later => different (.inr later)

theorem getElem?_rebuild [DecidableEq α] (f : β → γ) (m : ExtTreeMap α β) (k : α) :
    (m.toList.foldl (fun (n : ExtTreeMap α γ) entry => n.insertIfNew entry.1 (f entry.2)) ∅)[k]? =
      m[k]?.map f := by
  obtain ⟨added, kept⟩ := getElem?_foldl_insertIfNew (fun entry : α × β => entry.1)
    (fun entry => f entry.2) (nodup_toList m) ∅ k
  obtain none | ⟨v, found⟩ := Option.eq_none_or_eq_some m[k]?
  · rw [kept, none]
    · simp
    · right
      intro member
      obtain ⟨⟨_, v⟩, listed, rfl⟩ := List.mem_map.mp member
      simp [ExtTreeMap.mem_toList_iff_getElem?_eq_some.mp listed] at none
  · rw [added _ (ExtTreeMap.mem_toList_iff_getElem?_eq_some.mpr found) rfl (by simp), found]
    rfl

theorem toList_perm {m : ExtTreeMap α β} {l : List (α × β)} (nodup : (l.map (·.1)).Nodup)
    (same : ∀ k v, (k, v) ∈ l ↔ m[k]? = some v) : m.toList.Perm l := by
  refine (List.perm_ext_iff_of_nodup (List.Nodup.of_map _ (nodup_toList m))
    (List.Nodup.of_map _ nodup)).mpr fun ⟨k, v⟩ => ?_
  rw [same, ExtTreeMap.mem_toList_iff_getElem?_eq_some]

/-! ## Lower bounds -/

/-- The entries from the key on. -/
def lowerBound (m : ExtTreeMap α β) (key : α) : List (α × β) :=
  m.toList.dropWhile fun entry => compare entry.1 key == .lt

theorem mem_lowerBound {m : ExtTreeMap α β} {key k : α} {v : β} :
    (k, v) ∈ lowerBound m key ↔ m[k]? = some v ∧ compare k key ≠ .lt := by
  rw [lowerBound, ← ExtTreeMap.mem_toList_iff_getElem?_eq_some]
  have ordered := ExtTreeMap.ordered_keys_toList (t := m)
  generalize m.toList = entries at ordered ⊢
  induction entries with
  | nil => simp
  | cons entry rest ih =>
      obtain ⟨above, ordered⟩ := List.pairwise_cons.mp ordered
      rw [List.dropWhile_cons]
      by_cases before : compare entry.1 key = .lt
      · have rest := ih ordered
        rw [if_pos (by simp [before])]
        refine rest.trans ?_
        rw [List.mem_cons]
        constructor
        · rintro ⟨member, after⟩
          exact ⟨.inr member, after⟩
        · rintro ⟨rfl | member, after⟩
          · exact absurd before after
          · exact ⟨member, after⟩
      · rw [if_neg (by simp [before])]
        refine ⟨fun member => ⟨member, ?_⟩, fun both => both.1⟩
        rcases List.mem_cons.mp member with rfl | later
        · exact before
        · intro low
          exact before (TransCmp.lt_trans (above _ later) low)

omit [LawfulEqOrd α] in
theorem lowerBound_ordered (m : ExtTreeMap α β) (key : α) :
    (lowerBound m key).Pairwise fun a b => compare a.1 b.1 = .lt :=
  ExtTreeMap.ordered_keys_toList.sublist (List.dropWhile_sublist _)

/-! ## Sums over the entries -/

def total (f : α → β → Nat) (m : ExtTreeMap α β) : Nat :=
  (m.toList.map fun entry => f entry.1 entry.2).sum

section
variable {f : α → β → Nat} {m : ExtTreeMap α β} {k k' : α} {v v' : β}

omit [LawfulEqOrd α] in
theorem total_eq_of_perm {l : List (α × β)} (perm : m.toList.Perm l) :
    total f m = (l.map fun entry => f entry.1 entry.2).sum :=
  (perm.map _).sum_eq

theorem total_insert [DecidableEq α] (fresh : m[k]? = none) :
    total f (m.insert k v) = total f m + f k v := by
  have absent : k ∉ m.toList.map (·.1) := by
    intro member
    obtain ⟨⟨_, w⟩, found, rfl⟩ := List.mem_map.mp member
    simp [ExtTreeMap.mem_toList_iff_getElem?_eq_some.mp found] at fresh
  have perm : (m.insert k v).toList.Perm ((k, v) :: m.toList) := by
    refine toList_perm (List.nodup_cons.mpr ⟨absent, nodup_toList m⟩) fun key value => ?_
    rw [List.mem_cons, ExtTreeMap.mem_toList_iff_getElem?_eq_some, getElem?_insert]
    by_cases same : k = key
    · subst same
      simp [fresh, eq_comm]
    · simp [same, Ne.symm same]
  rw [total_eq_of_perm perm, List.map_cons, List.sum_cons, total, Nat.add_comm]

theorem total_erase [DecidableEq α] (found : m[k]? = some v) :
    total f m = total f (m.erase k) + f k v := by
  have back : (m.erase k).insert k v = m := by
    refine ExtTreeMap.ext_getElem? fun {key} => ?_
    rw [getElem?_insert, getElem?_erase]
    by_cases same : k = key
    · subst same
      simp [found]
    · simp [same]
  have gone : (m.erase k)[k]? = none := by simp
  exact (congrArg (total f) back).symm.trans (total_insert gone)

theorem total_update [DecidableEq α] (found : m[k]? = some v) :
    total f (m.insert k v') + f k v = total f m + f k v' := by
  have again : (m.erase k).insert k v' = m.insert k v' := by
    refine ExtTreeMap.ext_getElem? fun {key} => ?_
    rw [getElem?_insert, getElem?_insert, getElem?_erase]
    by_cases same : k = key <;> simp [same]
  have gone : (m.erase k)[k]? = none := by simp
  rw [← again, total_insert gone, total_erase found]
  omega

theorem le_total (found : m[k]? = some v) : f k v ≤ total f m :=
  List.le_sum_of_mem
    (List.mem_map.mpr ⟨(k, v), ExtTreeMap.mem_toList_iff_getElem?_eq_some.mpr found, rfl⟩)

theorem add_le_total [DecidableEq α] (found : m[k]? = some v) (found' : m[k']? = some v')
    (different : k ≠ k') : f k v + f k' v' ≤ total f m := by
  have other : (m.erase k)[k']? = some v' := by rw [getElem?_erase, if_neg different, found']
  have bound : f k' v' ≤ total f (m.erase k) := le_total other
  rw [total_erase found]
  omega

theorem total_eq_zero (zero : ∀ k v, m[k]? = some v → f k v = 0) : total f m = 0 := by
  refine List.sum_eq_zero fun n member => ?_
  obtain ⟨⟨key, value⟩, found, rfl⟩ := List.mem_map.mp member
  exact zero key value (ExtTreeMap.mem_toList_iff_getElem?_eq_some.mp found)

end

theorem filter_toList {m m' : ExtTreeMap α β} {p : α → Bool}
    (agree : ∀ k, p k = true → m[k]? = m'[k]?) :
    (m.toList.filter fun entry => p entry.1) = m'.toList.filter fun entry => p entry.1 := by
  have same : (m.filter fun k _ => p k) = m'.filter fun k _ => p k := by
    refine ExtTreeMap.ext_getElem? fun {k} => ?_
    rw [ExtTreeMap.getElem?_filter', ExtTreeMap.getElem?_filter']
    cases here : p k with
    | true => rw [agree k here]
    | false => simp
  have lists := congrArg ExtTreeMap.toList same
  rwa [ExtTreeMap.toList_filter, ExtTreeMap.toList_filter] at lists

/-! ## Folds seen from one key -/

section
variable {σ τ κ ι : Type*} [DecidableEq ι] {key : κ → ι} {k : ι}

/-- A fold whose steps each change the view of their own key only. -/
theorem foldl_view (f : σ → κ → σ) (key : κ → ι) (view : σ → τ) (g : τ → κ → τ) (k : ι)
    (mine : ∀ s x, key x = k → view (f s x) = g (view s) x)
    (others : ∀ s x, key x ≠ k → view (f s x) = view s) (xs : List κ) (s : σ) :
    view (xs.foldl f s) = (xs.filter fun x => key x = k).foldl g (view s) := by
  induction xs generalizing s with
  | nil => rfl
  | cons x xs ih =>
      rw [List.foldl_cons, ih]
      by_cases same : key x = k
      · rw [List.filter_cons_of_pos (by simpa using same), List.foldl_cons, mine s x same]
      · rw [List.filter_cons_of_neg (by simpa using same), others s x same]

/-- Two folds over lists that are alike where `p` holds, whose other steps keep `R`. -/
theorem foldl_rel {R : σ → σ → Prop} (symm : ∀ s t, R s t → R t s)
    (trans : ∀ s t u, R s t → R t u → R s u) {f : σ → κ → σ} {p : κ → Bool}
    (same : ∀ s t x, p x = true → R s t → R (f s x) (f t x))
    (apart : ∀ s x, p x = false → R s (f s x)) {xs ys : List κ}
    (alike : xs.filter p = ys.filter p) {s t : σ} (start : R s t) :
    R (xs.foldl f s) (ys.foldl f t) := by
  have one : ∀ (xs : List κ) s t, R s t → R (xs.foldl f s) ((xs.filter p).foldl f t) := by
    intro xs
    induction xs with
    | nil => exact fun _ _ start => start
    | cons x xs ih =>
        intro s t start
        cases here : p x with
        | false =>
            rw [List.filter_cons_of_neg (by simp [here])]
            exact ih _ _ (trans _ _ _ (symm _ _ (apart s x here)) start)
        | true =>
            rw [List.filter_cons_of_pos here]
            exact ih _ _ (same s t x here start)
  refine trans _ _ _ (one xs s t start) ?_
  rw [alike]
  exact symm _ _ (one ys t t (trans _ _ _ (symm _ _ start) start))

theorem filter_key {xs : List κ} (nodup : (xs.map key).Nodup) {x : κ} (member : x ∈ xs) :
    (xs.filter fun y => key y = key x) = [x] := by
  induction xs with
  | nil => cases member
  | cons y ys ih =>
      obtain ⟨once, nodup⟩ := List.nodup_cons.mp nodup
      rcases List.mem_cons.mp member with rfl | later
      · have rest : (ys.filter fun y => key y = key x) = [] := by
          refine List.filter_eq_nil_iff.mpr fun y there same => ?_
          exact once (List.mem_map.mpr ⟨y, there, by simpa using same⟩)
        rw [List.filter_cons_of_pos (by simp), rest]
      · have different : key y ≠ key x := fun same =>
          once (same ▸ List.mem_map_of_mem later)
        rw [List.filter_cons_of_neg (by simpa using different), ih nodup later]

theorem filter_key_eq_nil {xs : List κ} (absent : k ∉ xs.map key) :
    (xs.filter fun y => key y = k) = [] :=
  List.filter_eq_nil_iff.mpr fun y there same =>
    absent (List.mem_map.mpr ⟨y, there, by simpa using same⟩)

/-- Steps that do no more when they are repeated. -/
theorem foldl_idempotent {h : τ → τ} (again : ∀ v, h (h v) = h v) (xs : List κ) (v : τ) :
    xs.foldl (fun v _ => h v) v = if xs = [] then v else h v := by
  induction xs generalizing v with
  | nil => rfl
  | cons x xs ih =>
      rw [List.foldl_cons, ih, if_neg (List.cons_ne_nil _ _)]
      split
      · rfl
      · exact again v

end

end Gfs.Lib.Maps
