import Gfs.Common.Paths
import Mathlib.Data.List.Sort

/-!
# The path locks of `master/lock_table.cc`

A request locks a path in write mode or in read mode together with the paths above it in read mode.
Two holders whose sets are compatible can touch no common subtree.
-/

namespace Gfs.Master

inductive LockMode
  | read | write
deriving DecidableEq, Repr

structure LockRequest where
  path : Str
  mode : LockMode
deriving DecidableEq, Repr

namespace LockTable

def depthOf (path : Str) : Nat := if path = ['/'] then 0 else path.count '/'

def before (a b : LockRequest) : Bool :=
  if depthOf a.path ≠ depthOf b.path then decide (depthOf a.path < depthOf b.path)
  else compare a.path b.path == .lt

/-- The loop body of `Normalize`. -/
def merge (out : List LockRequest) (r : LockRequest) : List LockRequest :=
  match out.getLast? with
  | some last =>
      if last.path = r.path then
        if r.mode = .write then out.dropLast ++ [{ last with mode := .write }] else out
      else out ++ [r]
  | none => out ++ [r]

def normalize (requests : List LockRequest) : List LockRequest :=
  (requests.insertionSort fun a b => before b a = false).foldl merge []

def forPath (path : Str) (leaf : LockMode) : List LockRequest :=
  (ancestorsOf path).map (⟨·, .read⟩) ++ [⟨path, leaf⟩]

def forPaths (first : Str) (firstMode : LockMode) (second : Str) (secondMode : LockMode) :
    List LockRequest :=
  forPath first firstMode ++ forPath second secondMode

/-- Nobody waits for anybody. -/
def compatible (held wanted : List LockRequest) : Bool :=
  held.all fun r => wanted.all fun r' => r.path ≠ r'.path || (r.mode = .read && r'.mode = .read)

/-! ## The order of the locks -/

section
variable {a b c r : LockRequest} {requests rest out : List LockRequest}

theorem before_iff : before a b = true ↔ depthOf a.path < depthOf b.path ∨
    depthOf a.path = depthOf b.path ∧ compare a.path b.path = .lt := by
  unfold before
  by_cases same : depthOf a.path = depthOf b.path
  · simp [same]
  · simp [same]

theorem before_congr {a' b' : LockRequest} (left : a.path = a'.path) (right : b.path = b'.path) :
    before a b = before a' b' := by
  rw [before, left, right]
  rfl

theorem before_irrefl (same : a.path = b.path) : before a b = false := by
  refine Bool.eq_false_iff.mpr fun holds => ?_
  rw [before_iff, same] at holds
  rcases holds with less | ⟨_, less⟩
  · exact lt_irrefl _ less
  · rw [Std.ReflOrd.compare_self] at less
    cases less

theorem before_trans (first : before a b = true) (second : before b c = true) :
    before a c = true := by
  rw [before_iff] at first second ⊢
  rcases first with less | ⟨same, less⟩
  · rcases second with less' | ⟨same', _⟩
    · exact .inl (less.trans less')
    · exact .inl (same' ▸ less)
  · rcases second with less' | ⟨same', less'⟩
    · exact .inl (same ▸ less')
    · exact .inr ⟨same.trans same', Std.TransCmp.lt_trans less less'⟩

theorem before_asymm (holds : before a b = true) : before b a = false := by
  refine Bool.eq_false_iff.mpr fun back => ?_
  have loop := before_trans holds back
  rw [before_irrefl rfl] at loop
  cases loop

theorem before_total (different : a.path ≠ b.path) (behind : before b a = false) :
    before a b = true := by
  have back := Bool.eq_false_iff.mp behind
  rw [ne_eq, before_iff, not_or, not_and] at back
  rw [before_iff]
  rcases lt_or_eq_of_le (Nat.le_of_not_lt back.1) with less | same
  · exact .inl less
  · refine .inr ⟨same, ?_⟩
    have notLess := back.2 same.symm
    rw [Std.OrientedOrd.eq_swap] at notLess
    cases order : compare a.path b.path with
    | lt => rfl
    | eq => exact absurd (Std.LawfulEqCmp.eq_of_compare order) different
    | gt =>
        rw [order] at notLess
        exact absurd rfl notLess

/-- `Before` never puts a later request of the list first. -/
def Sorted (requests : List LockRequest) : Prop := requests.Pairwise fun a b => before b a = false

def Ordered (requests : List LockRequest) : Prop := requests.Pairwise fun a b => before a b = true

theorem sorted_insertionSort : Sorted (requests.insertionSort fun a b => before b a = false) := by
  have total : Std.Total fun a b : LockRequest => before b a = false := by
    refine ⟨fun a b => ?_⟩
    cases behind : before b a with
    | false => exact .inl rfl
    | true => exact .inr (before_asymm behind)
  have trans : IsTrans LockRequest fun a b => before b a = false := by
    refine ⟨fun a b c first second => Bool.eq_false_iff.mpr fun back => ?_⟩
    by_cases same : a.path = b.path
    · rw [before_congr rfl same, second] at back
      cases back
    · have late := before_trans back (before_total same first)
      rw [second] at late
      cases late
  exact List.pairwise_insertionSort _ _

theorem Ordered.merge (ordered : Ordered out) (behind : ∀ a ∈ out, before r a = false) :
    Ordered (merge out r) ∧ ∀ b, (∀ a ∈ out, before b a = false) → before b r = false →
      ∀ a ∈ merge out r, before b a = false := by
  unfold LockTable.merge
  rcases List.eq_nil_or_concat out with rfl | ⟨front, last, rfl⟩
  · exact ⟨List.pairwise_singleton _ _, by simp⟩
  · simp only [List.concat_eq_append] at ordered behind ⊢
    simp only [List.getLast?_append, List.getLast?_singleton, Option.some_or, List.dropLast_concat]
    split
    · rename_i same
      split
      · refine ⟨?_, fun b front' behind' a member => ?_⟩
        · rw [Ordered, List.pairwise_append] at ordered ⊢
          refine ⟨ordered.1, List.pairwise_singleton _ _, fun a inFront w member => ?_⟩
          obtain rfl := List.mem_singleton.mp member
          exact ordered.2.2 a inFront last (List.mem_singleton.mpr rfl)
        · rcases List.mem_append.mp member with inFront | isLast
          · exact front' a (List.mem_append_left _ inFront)
          · obtain rfl := List.mem_singleton.mp isLast
            exact front' last (List.mem_append_right _ (List.mem_singleton.mpr rfl))
      · exact ⟨ordered, fun b front' _ => front'⟩
    · rename_i different
      have inOut : last ∈ front ++ [last] := List.mem_append_right _ (List.mem_singleton.mpr rfl)
      have above : before last r = true := before_total different (behind last inOut)
      refine ⟨?_, fun b front' behind' a member => ?_⟩
      · refine List.pairwise_append.mpr
          ⟨ordered, List.pairwise_singleton _ _, fun a member w isLast => ?_⟩
        obtain rfl := List.mem_singleton.mp isLast
        rcases List.mem_append.mp member with inFront | isLast
        · have apart := (List.pairwise_append.mp ordered).2.2
          exact before_trans (apart a inFront last (List.mem_singleton.mpr rfl)) above
        · obtain rfl := List.mem_singleton.mp isLast
          exact above
      · rcases List.mem_append.mp member with old | isLast
        · exact front' a old
        · obtain rfl := List.mem_singleton.mp isLast
          exact behind'

theorem ordered_foldl_merge (sorted : Sorted rest) (ordered : Ordered out)
    (behind : ∀ b ∈ rest, ∀ a ∈ out, before b a = false) : Ordered (rest.foldl merge out) := by
  induction rest generalizing out with
  | nil => exact ordered
  | cons r rest ih =>
      obtain ⟨first, sorted⟩ := List.pairwise_cons.mp sorted
      obtain ⟨merged, after⟩ := ordered.merge (behind r List.mem_cons_self)
      refine ih sorted merged fun b member => after b ?_ (first b member)
      exact behind b (List.mem_cons_of_mem _ member)

theorem ordered_normalize : Ordered (normalize requests) :=
  ordered_foldl_merge sorted_insertionSort List.Pairwise.nil (fun _ _ => nofun)

end

/-! ## What a set locks -/

section
variable {locks out : List LockRequest} {r : LockRequest} {path p q source target : Str}
  {leaf mode : LockMode}

def Covers (locks : List LockRequest) (path : Str) : Prop := ∃ mode, ⟨path, mode⟩ ∈ locks

theorem compatible_iff {held wanted : List LockRequest} :
    compatible held wanted = true ↔
      ∀ path, (⟨path, .write⟩ ∈ held → ¬ Covers wanted path) ∧
        (⟨path, .write⟩ ∈ wanted → ¬ Covers held path) := by
  simp only [compatible, List.all_eq_true, Bool.or_eq_true, Bool.and_eq_true, decide_eq_true_eq,
    ne_eq, decide_not, Bool.not_eq_true', decide_eq_false_iff_not]
  constructor
  · intro apart path
    constructor
    · rintro writes ⟨mode, covers⟩
      rcases apart _ writes _ covers with different | ⟨read, _⟩
      · exact different rfl
      · cases read
    · rintro writes ⟨mode, covers⟩
      rcases apart _ covers _ writes with different | ⟨_, read⟩
      · exact different rfl
      · cases read
  · intro apart r inHeld r' inWanted
    by_cases same : r.path = r'.path
    · obtain ⟨p, m⟩ := r
      obtain ⟨p', m'⟩ := r'
      obtain rfl : p = p' := same
      right
      cases m with
      | write => exact absurd ⟨m', inWanted⟩ ((apart p).1 inHeld)
      | read =>
          cases m' with
          | write => exact absurd ⟨_, inHeld⟩ ((apart p).2 inWanted)
          | read => exact ⟨rfl, rfl⟩
    · exact .inl same

theorem compatible_comm {held wanted : List LockRequest} :
    compatible held wanted = compatible wanted held := by
  rw [Bool.eq_iff_iff, compatible_iff, compatible_iff]
  exact forall_congr' fun _ => and_comm

theorem covers_append {more : List LockRequest} :
    Covers (locks ++ more) path ↔ Covers locks path ∨ Covers more path := by
  simp [Covers, exists_or]

theorem covers_cons : Covers (r :: locks) path ↔ r.path = path ∨ Covers locks path := by
  rw [← List.singleton_append, covers_append]
  refine or_congr_left ?_
  constructor
  · rintro ⟨mode, member⟩
    rw [← List.mem_singleton.mp member]
  · rintro rfl
    exact ⟨r.mode, List.mem_singleton.mpr rfl⟩

theorem mem_merge_write :
    ⟨path, .write⟩ ∈ merge out r ↔ ⟨path, .write⟩ ∈ out ∨ r = ⟨path, .write⟩ := by
  unfold merge
  rcases List.eq_nil_or_concat out with rfl | ⟨front, last, rfl⟩
  · simp [eq_comm]
  · obtain ⟨rpath, rmode⟩ := r
    obtain ⟨lpath, lmode⟩ := last
    simp only [List.concat_eq_append, List.getLast?_append, List.getLast?_singleton,
      Option.some_or, List.dropLast_concat]
    split
    · rename_i same
      obtain rfl : lpath = rpath := same
      cases rmode <;> cases lmode <;> simp [eq_comm]
    · simp [eq_comm, or_assoc]

theorem covers_merge : Covers (merge out r) path ↔ Covers out path ∨ r.path = path := by
  unfold merge
  rcases List.eq_nil_or_concat out with rfl | ⟨front, last, rfl⟩
  · exact covers_cons.trans or_comm
  · obtain ⟨rpath, rmode⟩ := r
    obtain ⟨lpath, lmode⟩ := last
    simp only [List.concat_eq_append, List.getLast?_append, List.getLast?_singleton,
      Option.some_or, List.dropLast_concat]
    split
    · rename_i same
      obtain rfl : lpath = rpath := same
      split
      · rw [covers_append, covers_append, covers_cons, covers_cons]
        simp [Covers]
      · rw [covers_append, covers_cons]
        simp [Covers]
    · rw [covers_append, covers_cons]
      simp [Covers]

theorem mem_normalize_write : ⟨path, .write⟩ ∈ normalize locks ↔ ⟨path, .write⟩ ∈ locks := by
  have merged : ∀ (rest out : List LockRequest), ⟨path, .write⟩ ∈ rest.foldl merge out ↔
      ⟨path, .write⟩ ∈ out ∨ ⟨path, .write⟩ ∈ rest := by
    intro rest
    induction rest with
    | nil => simp
    | cons r rest ih =>
        intro out
        rw [List.foldl_cons, ih, mem_merge_write, List.mem_cons, or_assoc, eq_comm (a := r)]
  rw [normalize, merged, List.mem_insertionSort]
  simp

theorem covers_normalize : Covers (normalize locks) path ↔ Covers locks path := by
  have merged : ∀ (rest out : List LockRequest), Covers (rest.foldl merge out) path ↔
      Covers out path ∨ Covers rest path := by
    intro rest
    induction rest with
    | nil => simp [Covers]
    | cons r rest ih =>
        intro out
        rw [List.foldl_cons, ih, covers_merge, covers_cons, or_assoc]
  rw [normalize, merged]
  simp [Covers]

theorem mem_forPath_write : ⟨q, .write⟩ ∈ forPath path leaf ↔ q = path ∧ leaf = .write := by
  simp [forPath, eq_comm]

theorem covers_forPath (nonempty : q ≠ []) (notRoot : path ≠ ['/']) :
    Covers (forPath path leaf) q ↔ isAncestorOrSelf q path = true := by
  have above := mem_ancestorsOf nonempty notRoot
  rw [forPath, covers_append, covers_cons]
  constructor
  · rintro (⟨mode, member⟩ | same | ⟨_, none⟩)
    · obtain ⟨_, ancestor, same⟩ := List.mem_map.mp member
      cases same
      exact (above.mp ancestor).1
    · rw [show path = q from same]
      exact isAncestorOrSelf_self
    · cases none
  · intro below
    by_cases same : q = path
    · exact .inr (.inl same.symm)
    · exact .inl ⟨.read, List.mem_map.mpr ⟨q, above.mpr ⟨below, same⟩, rfl⟩⟩

/-! ## What compatible sets keep apart -/

def Apart (p q : Str) : Prop := isAncestorOrSelf p q = false ∧ isAncestorOrSelf q p = false

def Reaches (locks : List LockRequest) (path : Str) : Prop :=
  ∀ a, a ≠ [] → isAncestorOrSelf a path = true → Covers locks a

/-- The set has the path in write mode, and the paths above it. -/
def Owns (locks : List LockRequest) (path : Str) : Prop :=
  ⟨path, .write⟩ ∈ locks ∧ Reaches locks path

theorem reaches_forPath (notRoot : path ≠ ['/']) :
    Reaches (normalize (forPath path leaf)) path := by
  intro a nonempty above
  exact covers_normalize.mpr ((covers_forPath nonempty notRoot).mpr above)

theorem owns_forPath (notRoot : path ≠ ['/']) : Owns (normalize (forPath path .write)) path :=
  ⟨mem_normalize_write.mpr (mem_forPath_write.mpr ⟨rfl, rfl⟩), reaches_forPath notRoot⟩

theorem owns_forPaths (source' : source ≠ ['/']) (target' : target ≠ ['/']) :
    Owns (normalize (forPaths source .write target .write)) source ∧
      Owns (normalize (forPaths source .write target .write)) target := by
  refine ⟨⟨?_, fun a nonempty above => ?_⟩, ⟨?_, fun a nonempty above => ?_⟩⟩
  · exact mem_normalize_write.mpr (List.mem_append_left _ (mem_forPath_write.mpr ⟨rfl, rfl⟩))
  · exact covers_normalize.mpr
      (covers_append.mpr (.inl ((covers_forPath nonempty source').mpr above)))
  · exact mem_normalize_write.mpr (List.mem_append_right _ (mem_forPath_write.mpr ⟨rfl, rfl⟩))
  · exact covers_normalize.mpr
      (covers_append.mpr (.inr ((covers_forPath nonempty target').mpr above)))

/-- A write lock keeps others away from its subtree. -/
theorem Owns.not_below {other : List LockRequest} (owns : Owns locks p)
    (free : compatible locks other = true) (reaches : Reaches other q) (nonempty : p ≠ []) :
    isAncestorOrSelf p q = false := by
  by_contra below
  exact (compatible_iff.mp free p).1 owns.1 (reaches p nonempty (by simpa using below))

theorem Owns.apart {other : List LockRequest} (owns : Owns locks p) (owns' : Owns other q)
    (free : compatible locks other = true) (nonempty : p ≠ []) (nonempty' : q ≠ []) : Apart p q :=
  ⟨owns.not_below free owns'.2 nonempty, owns'.not_below (compatible_comm ▸ free) owns.2 nonempty'⟩

end

end LockTable

end Gfs.Master
