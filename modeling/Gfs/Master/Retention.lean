import Gfs.Common.PathStrings
import Gfs.Master.Live

/-!
# `Master::GcPass` and the retention time

The stamp of a hidden name is any number that `from_chars` reads into 64 bits, and the retention is
added to it in 64 bits. A sum that is out of range turns negative, and the file is removed at once.
-/

namespace Gfs.Master
open Lib.Maps

/-- `retention_seconds`. -/
def retentionSeconds (cfg : Config) : Int := cfg.deletedFileRetention.tdiv (millis 1000)

/-- The file was hidden long enough ago. -/
def Overdue (cfg : Config) (unixSeconds : Int) (path : Str) : Prop :=
  ∃ stamp original, parseHiddenName path = some (stamp, original) ∧
    stamp + retentionSeconds cfg ≤ unixSeconds

/-- The sum for the name is in range, or so far out of it that it passes for a later time. -/
def InRange (cfg : Config) (unixSeconds : Int) (path : Str) : Prop :=
  ∀ stamp original, parseHiddenName path = some (stamp, original) →
    stamp + retentionSeconds cfg < 2 ^ 63 ∨ unixSeconds < stamp + retentionSeconds cfg - 2 ^ 64

section
variable {cfg : Config} {unixSeconds : Int} {path : Str}

instance : Decidable (InRange cfg unixSeconds path) :=
  decidable_of_iff (∀ name ∈ parseHiddenName path, name.1 + retentionSeconds cfg < 2 ^ 63 ∨
      unixSeconds < name.1 + retentionSeconds cfg - 2 ^ 64)
    ⟨fun every stamp original parsed => every (stamp, original) parsed,
      fun range name parsed => range name.1 name.2 parsed⟩

theorem parseInt64_range {text : Str} {stamp : Int} (read : parseInt64 text = some stamp) :
    -2 ^ 63 ≤ stamp ∧ stamp < 2 ^ 63 := by
  unfold parseInt64 at read
  split at read
  · split at read
    · rename_i good
      obtain rfl := Option.some.inj read
      have bound := good.2.2
      omega
    · cases read
  · split at read
    · rename_i good
      obtain rfl := Option.some.inj read
      have bound := good.2.2
      omega
    · cases read

theorem parseHiddenName_range {stamp : Int} {original : Str}
    (parsed : parseHiddenName path = some (stamp, original)) :
    -2 ^ 63 ≤ stamp ∧ stamp < 2 ^ 63 := by
  unfold parseHiddenName at parsed
  split at parsed
  · dsimp only at parsed
    split at parsed
    · split at parsed
      · cases parsed
      · obtain ⟨read, found, same⟩ := Option.map_eq_some_iff.mp parsed
        cases same
        exact parseInt64_range found
    · cases parsed
  · cases parsed

/-- The test of the pass is the exact one just when the sum is in range. -/
theorem isExpired_exact_iff (nonneg : 0 ≤ retentionSeconds cfg)
    (word : retentionSeconds cfg < 2 ^ 63) (clock : unixSeconds < 2 ^ 63) :
    (Live.isExpired cfg unixSeconds path = true ↔ Overdue cfg unixSeconds path) ↔
      InRange cfg unixSeconds path := by
  unfold Live.isExpired Overdue InRange
  cases parsed : parseHiddenName path with
  | none => simp
  | some name =>
      obtain ⟨stamp, original⟩ := name
      obtain ⟨low, high⟩ := parseHiddenName_range parsed
      have only : (∃ stamp' original', some (stamp, original) = some (stamp', original') ∧
          stamp' + retentionSeconds cfg ≤ unixSeconds) ↔
          stamp + retentionSeconds cfg ≤ unixSeconds := by
        simp
      have sum : stamp + cfg.deletedFileRetention.tdiv (millis 1000) =
          stamp + retentionSeconds cfg := rfl
      dsimp only
      rw [only, decide_eq_true_iff, sum]
      generalize retentionSeconds cfg = retention at nonneg word
      have every : (∀ stamp' original', some (stamp, original) = some (stamp', original') →
          stamp' + retention < 2 ^ 63 ∨ unixSeconds < stamp' + retention - 2 ^ 64) ↔
          (stamp + retention < 2 ^ 63 ∨ unixSeconds < stamp + retention - 2 ^ 64) := by
        simp
      rw [every]
      by_cases fits : stamp + retention < 2 ^ 63
      · rw [int64_of_range (by omega) fits]
        exact iff_of_true Iff.rfl (.inl fits)
      · have wrapped : int64 (stamp + retention) = stamp + retention - 2 ^ 64 := by
          unfold int64
          omega
        rw [wrapped]
        omega

end

/-! ## A pass without other calls -/

namespace Live

def removeExpired (id : Nat) : Nat → Live → Option Live
  | 0, s => some s
  | count + 1, s => (s.gcRemove id).bind (removeExpired id count)

def wholeGcPass (cfg : Config) (s : Live) (id : Nat) (unixSeconds : Int) : Option Live :=
  (s.gcPass cfg id unixSeconds).bind fun started =>
    (removeExpired id (s.state.files.keys.filter (isExpired cfg unixSeconds)).length started).bind
      (·.gcDrop id)

section
variable {cfg : Config} {s s' : Live} {id lastSeq : Nat} {unixSeconds : Int} {path : Str}
variable {expired : List Str}

theorem isFree_gc (alone : s.calls = (∅ : Std.ExtTreeMap Nat Task).insert id (.gc expired lastSeq))
    (locks : List LockRequest) : s.isFree locks = true := by
  apply List.all_eq_true.mpr
  rintro ⟨other, task⟩ member
  have found := Std.ExtTreeMap.mem_toList_iff_getElem?_eq_some.mp member
  rw [alone, getElem?_insert] at found
  split at found
  · obtain rfl := Option.some.inj found
    rfl
  · simp at found

theorem applyRemove_files (state : MasterState) (path other : Str) :
    (state.applyRemove path).files[other]? =
      if path = other then none else state.files[other]? := by
  unfold MasterState.applyRemove
  cases found : state.files[path]? with
  | none =>
      dsimp only
      split
      · rename_i same
        exact same ▸ found
      · rfl
  | some file => exact getElem?_erase

theorem removeExpired_files
    (alone : s.calls = (∅ : Std.ExtTreeMap Nat Task).insert id (.gc expired lastSeq)) :
    ∃ s' lastSeq', removeExpired id expired.length s = some s' ∧
      s'.calls = (∅ : Std.ExtTreeMap Nat Task).insert id (.gc [] lastSeq') ∧
      ∀ path : Str, s'.state.files[path]? =
        if path ∈ expired then none else s.state.files[path]? := by
  induction expired generalizing s lastSeq with
  | nil => exact ⟨s, lastSeq, rfl, alone, by simp⟩
  | cons path expired ih =>
      have call : s.calls[id]? = some (.gc (path :: expired) lastSeq) := by
        rw [alone, getElem?_insert, if_pos rfl]
      have again : ∀ task task' : Task,
          ((∅ : Std.ExtTreeMap Nat Task).insert id task).insert id task' =
            (∅ : Std.ExtTreeMap Nat Task).insert id task' := by
        intro task task'
        refine Std.ExtTreeMap.ext_getElem? fun {other} => ?_
        rw [getElem?_insert, getElem?_insert, getElem?_insert]
        split
        · rfl
        · rfl
      obtain ⟨s₁, seq, round, calls, files⟩ : ∃ s₁ seq, s.gcRemove id = some s₁ ∧
          s₁.calls = (∅ : Std.ExtTreeMap Nat Task).insert id (.gc expired seq) ∧
          ∀ other : Str, s₁.state.files[other]? =
            if path = other then none else s.state.files[other]? := by
        unfold gcRemove
        rw [call]
        dsimp only
        rw [if_pos (isFree_gc alone _)]
        split
        · refine ⟨_, (s.write (s.state.applyRemove path) (.remove path)).seq, rfl, ?_,
            applyRemove_files s.state path⟩
          show s.calls.insert id _ = _
          rw [alone, again]
        · rename_i gone
          refine ⟨_, lastSeq, rfl, ?_, fun other => ?_⟩
          · show s.calls.insert id _ = _
            rw [alone, again]
          · show s.state.files[other]? = _
            split
            · rename_i same
              rw [← same]
              exact Std.ExtTreeMap.getElem?_eq_none (mt Std.ExtTreeMap.contains_iff_mem.mpr gone)
            · rfl
      obtain ⟨s', seq', rest, calls', files'⟩ := ih calls
      refine ⟨s', seq', ?_, calls', fun other => ?_⟩
      · rw [List.length_cons, removeExpired, round, Option.bind_some, rest]
      · rw [files', files]
        simp only [List.mem_cons]
        by_cases later : other ∈ expired
        · simp [later]
        · simp only [later, or_false, if_false]
          exact if_congr eq_comm rfl rfl

/-- Without other calls a pass removes what its test finds and nothing else. -/
theorem wholeGcPass_files (idle : s.calls = ∅) (cfg : Config) (id : Nat) (unixSeconds : Int) :
    ∃ s', s.wholeGcPass cfg id unixSeconds = some s' ∧ ∀ path ∈ s.state.files,
      (path ∉ s'.state.files ↔ isExpired cfg unixSeconds path = true) := by
  let expired := s.state.files.keys.filter (isExpired cfg unixSeconds)
  have started : s.gcPass cfg id unixSeconds = some (s.setCall id (.gc expired 0)) := by
    have free : s.isFree [] = true := by
      unfold isFree
      rw [idle]
      rfl
    rw [gcPass, begin, free, idle]
    simp [expired]
  have alone : (s.setCall id (.gc expired 0)).calls =
      (∅ : Std.ExtTreeMap Nat Task).insert id (.gc expired 0) := by
    show s.calls.insert id _ = _
    rw [idle]
  obtain ⟨s', seq, looped, calls, files⟩ := removeExpired_files alone
  have last : s'.calls[id]? = some (.gc [] seq) := by
    rw [calls, getElem?_insert, if_pos rfl]
  obtain ⟨s'', freed, same⟩ : ∃ s'', s'.gcDrop id = some s'' ∧
      s''.state.files = s'.state.files := by
    unfold gcDrop
    rw [last]
    exact ⟨_, rfl, MasterState.files_drops⟩
  refine ⟨s'', ?_, fun path member => ?_⟩
  · rw [wholeGcPass, started, Option.bind_some, looped, Option.bind_some, freed]
  · have there : path ∈ expired ↔ isExpired cfg unixSeconds path = true := by
      rw [List.mem_filter, Std.ExtTreeMap.mem_keys]
      exact and_iff_right member
    rw [same, Std.ExtTreeMap.mem_iff_isSome_getElem?, files, ← there]
    by_cases late : path ∈ expired
    · simp [late]
    · rw [if_neg late]
      exact iff_of_false (not_not.mpr (Std.ExtTreeMap.mem_iff_isSome_getElem?.mp member)) late

end

end Live

/-! ## Files that `Remove` has hidden -/

/-- A `Remove` of the path at the time logged this name for the file, with a stamp of 64 bits. -/
def HiddenAt (path : Str) (unixSeconds : Int) (hidden : Str) : Prop :=
  ∃ (before after : Live) (id : Nat), before.remove id path unixSeconds = some after ∧
    after.log = before.log ++ [.rename path hidden] ∧ -2 ^ 63 ≤ unixSeconds ∧
    unixSeconds + before.state.files.size < 2 ^ 63

namespace Namespace

theorem hiddenNameIn_stamp {files : Namespace} {path : Str} (fuel : Nat) (stamp : Int) :
    ∃ later, files.hiddenNameIn path fuel stamp = hiddenNameFor path later ∧
      stamp ≤ later ∧ later ≤ stamp + fuel := by
  induction fuel generalizing stamp with
  | zero => exact ⟨stamp, rfl, le_refl _, by simp⟩
  | succ fuel ih =>
      unfold hiddenNameIn
      split
      · obtain ⟨later, is, low, high⟩ := ih (stamp + 1)
        exact ⟨later, is, by omega, by omega⟩
      · exact ⟨stamp, rfl, le_refl _, by omega⟩

end Namespace

section
variable {path hidden : Str} {unixSeconds : Int}

theorem HiddenAt.stamp (is : HiddenAt path unixSeconds hidden) :
    ∃ stamp, parseHiddenName hidden = some (stamp, path) ∧ unixSeconds ≤ stamp := by
  obtain ⟨before, after, id, removed, logged, low, high⟩ := is
  have checked : Live.checkPath path = true := by
    by_contra bad
    rw [Live.remove, if_pos (by simpa using bad)] at removed
    obtain rfl := Option.some.inj removed
    simp at logged
  have fresh : hidden = before.state.files.freshHiddenName path unixSeconds := by
    rw [Live.remove, if_neg (by simp [checked]), Live.begin] at removed
    split at removed
    · have body := Option.some.inj removed
      split at body
      · subst body
        simp at logged
      · split at body
        · subst body
          simp [Live.write, Live.setCall] at logged
        · subst body
          have same := List.append_cancel_left logged
          simp only [List.cons.injEq, LogRecord.rename.injEq, true_and, and_true] at same
          exact same.symm
    · cases removed
  obtain ⟨later, name, below, above⟩ :=
    @Namespace.hiddenNameIn_stamp before.state.files path before.state.files.size unixSeconds
  rw [Live.checkPath, Bool.and_eq_true] at checked
  have valid : PathStrings.isValidPath path = true := by
    rw [PathStrings.isValidPath_eq]
    exact checked.1
  obtain ⟨isPath, -, -, parsed⟩ := PathStrings.decodes valid (of_decide_eq_true checked.2)
    (show -2 ^ 63 ≤ later by omega) (show later < 2 ^ 63 by omega)
  have slash {p : Str} (valid : PathStrings.isValidPath p = true) : '/' ∈ p := by
    rw [PathStrings.isValidPath_eq] at valid
    unfold Gfs.isValidPath at valid
    split at valid
    · exact List.mem_cons_self
    · cases valid
  rw [PathStrings.hiddenNameFor_eq_list (slash valid)] at parsed isPath
  rw [PathStrings.parseHiddenName_eq (slash isPath)] at parsed
  exact ⟨later, by rw [fresh, Namespace.freshHiddenName, name, parsed], below⟩

end

/-- What the retention time promises of a pass from `s` to `s'`. -/
structure Honours (cfg : Config) (unixSeconds : Int) (s s' : Live) : Prop where
  removes : ∀ path ∈ s.state.files, (path ∉ s'.state.files ↔ Overdue cfg unixSeconds path)
  keeps : ∀ path removedAt hidden, HiddenAt path removedAt hidden → hidden ∈ s.state.files →
    unixSeconds < removedAt + retentionSeconds cfg → hidden ∈ s'.state.files

/-- The pass honours the retention time just when the sums for its files are in range. -/
theorem gcPass_honours_iff {cfg : Config} {s : Live} {unixSeconds : Int} (idle : s.calls = ∅)
    (nonneg : 0 ≤ retentionSeconds cfg) (word : retentionSeconds cfg < 2 ^ 63)
    (clock : unixSeconds < 2 ^ 63) (id : Nat) :
    ∃ s', s.wholeGcPass cfg id unixSeconds = some s' ∧
      (Honours cfg unixSeconds s s' ↔ ∀ path ∈ s.state.files, InRange cfg unixSeconds path) := by
  obtain ⟨s', pass, files⟩ := Live.wholeGcPass_files idle cfg id unixSeconds
  refine ⟨s', pass, fun honours path member => ?_, fun ranges => ?_⟩
  · rw [← isExpired_exact_iff nonneg word clock, ← files path member]
    exact honours.removes path member
  · have removes : ∀ path ∈ s.state.files,
        (path ∉ s'.state.files ↔ Overdue cfg unixSeconds path) := by
      intro path member
      rw [files path member]
      exact (isExpired_exact_iff nonneg word clock).mpr (ranges path member)
    refine ⟨removes, fun path removedAt hidden is member early => ?_⟩
    by_contra gone
    obtain ⟨stamp, original, parsed, overdue⟩ := (removes hidden member).mp gone
    obtain ⟨later, exact', below⟩ := is.stamp
    rw [parsed, Option.some.injEq, Prod.mk.injEq] at exact'
    omega

/-- A file, and two that were removed on either side of the retention time. -/
def twoHidden : Live where
  state := ["/a", "/.deleted.1699000000.x", "/.deleted.1699900000.y"].foldl
    (fun state path => MasterState.applyCreate state path.toList) {}

/-- The later one was hidden by a `Remove` and is kept with the file, the earlier one is removed. -/
theorem gcPass_honours_twoHidden :
    HiddenAt "/y".toList 1699900000 "/.deleted.1699900000.y".toList ∧
    ∃ s', twoHidden.wholeGcPass {} 0 1700000000 = some s' ∧ Honours {} 1700000000 twoHidden s' ∧
      s'.state.files.keys = ["/.deleted.1699900000.y".toList, "/a".toList] := by
  constructor
  · let before : Live := { state := MasterState.applyCreate {} "/y".toList }
    obtain ⟨after, removed, logged⟩ := Option.map_eq_some_iff.mp (by decide +kernel :
      (before.remove 0 "/y".toList 1699900000).map (·.log) =
        some [.rename "/y".toList "/.deleted.1699900000.y".toList])
    refine ⟨before, after, 0, removed, logged, by decide, by decide +kernel⟩
  · have kept : (twoHidden.wholeGcPass {} 0 1700000000).map (·.state.files.keys) =
        some ["/.deleted.1699900000.y".toList, "/a".toList] := by
      decide +kernel
    have ranges : ∀ path ∈ twoHidden.state.files.keys, InRange {} 1700000000 path := by
      decide +kernel
    obtain ⟨s', pass, honours⟩ : ∃ s', twoHidden.wholeGcPass {} 0 1700000000 = some s' ∧
        (Honours {} 1700000000 twoHidden s' ↔
          ∀ path ∈ twoHidden.state.files, InRange {} 1700000000 path) :=
      gcPass_honours_iff rfl (by decide) (by decide) (by decide) 0
    rw [pass, Option.map_some, Option.some.injEq] at kept
    exact ⟨s', pass,
      honours.mpr fun path member => ranges path (Std.ExtTreeMap.mem_keys.mpr member), kept⟩

/-- A client has created a file with the largest stamp. -/
def farFuture : Live where
  state := MasterState.applyCreate {} "/.deleted.9223372036854775807.x".toList

theorem gcPass_removes_early :
    ¬∃ s', farFuture.wholeGcPass {} 0 1700000000 = some s' ∧
      Honours {} 1700000000 farFuture s' := by
  rintro ⟨s', pass, honours⟩
  have gone : (farFuture.wholeGcPass {} 0 1700000000).map (fun s' =>
      s'.state.files.contains "/.deleted.9223372036854775807.x".toList) = some false := by
    decide +kernel
  have there : "/.deleted.9223372036854775807.x".toList ∈ farFuture.state.files := by
    apply Std.ExtTreeMap.contains_iff_mem.mp
    decide +kernel
  rw [pass, Option.map_some, Option.some.injEq] at gone
  have absent : "/.deleted.9223372036854775807.x".toList ∉ s'.state.files := fun member => by
    rw [Std.ExtTreeMap.contains_iff_mem.mpr member] at gone
    cases gone
  obtain ⟨stamp, original, parsed, overdue⟩ := (honours.removes _ there).mp absent
  have is : parseHiddenName "/.deleted.9223372036854775807.x".toList =
      some (9223372036854775807, "/x".toList) := by
    decide +kernel
  rw [is, Option.some.injEq, Prod.mk.injEq] at parsed
  have retention : retentionSeconds {} = 259200 := by decide
  omega

end Gfs.Master
