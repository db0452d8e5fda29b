import Gfs.Master.Backed

/-!
# What the segments and checkpoints hold

`Stored` describes a data directory from which nothing is missing: the newest checkpoint stands for
the records before its segment, and the segments from there on hold those up to some point of the
history. `Recover` rebuilds what replay makes of these records.
-/

namespace Gfs.Master.OpLog
open Framing Lib.Maps MasterState

/-! ## What the files hold -/

/-- The records of a segment; a file that is not there has none. -/
def Disk.records (c : Codec) (disk : Disk) (segment : Nat) : List LogRecord :=
  (readSegment c (disk.segments.getD segment [])).records

def recordsFrom (records : Nat → List LogRecord) (first active : Nat) : List LogRecord :=
  (List.range' first (active + 1 - first)).flatMap records

/-- From `first` on the segments hold the history up to `n`. -/
structure Tail (records : Nat → List LogRecord) (history : List LogRecord) (starts : Nat → Nat)
    (active n first : Nat) : Prop where
  below : first ≤ active
  start : starts first ≤ n
  same : history.take n = history.take (starts first) ++ recordsFrom records first active

structure Image (history : List LogRecord) (starts : Nat → Nat) (active n number : Nat)
    (checkpoint : Checkpoint) : Prop where
  positive : 1 < number
  below : number ≤ active
  start : starts number ≤ n
  state : ∃ m : MasterState, m.Plain ∧
    m.Alike (({} : MasterState).replay (history.take (starts number))) ∧ m.toCheckpoint = checkpoint

structure Stored (c : Codec) (disk : Disk) (history : List LogRecord) (starts : Nat → Nat)
    (active n : Nat) : Prop where
  positive : 1 ≤ active
  listed : active < 10 ^ 6
  within : ∀ segment ∈ disk.segments, segment ≤ active
  last : active ∈ disk.segments ∨ active = 1
  inside : n ≤ history.length
  origin : starts 1 = 0
  tail : ∀ first, 1 ≤ first → first ≤ active → (∀ number ∈ disk.checkpoints, number ≤ first) →
    Tail (disk.records c) history starts active n first
  checkpoints : ∀ (number : Nat) (bytes : Bytes), disk.checkpoints[number]? = some bytes →
    ∃ checkpoint, readCheckpoint c bytes = some checkpoint ∧
      Image history starts active n number checkpoint

section
variable {c : Codec} {disk disk' : Disk} {history history' : List LogRecord}
  {starts starts' : Nat → Nat} {active active' n n' first number : Nat} {checkpoint : Checkpoint}
  {records records' : Nat → List LogRecord}

theorem recordsFrom_congr (same : ∀ k, first ≤ k → k ≤ active → records' k = records k) :
    recordsFrom records' first active = recordsFrom records first active := by
  apply List.flatMap_congr
  intro k member
  obtain ⟨low, high⟩ := List.mem_range'_1.mp member
  exact same k low (by omega)

theorem recordsFrom_last (below : first ≤ active) : recordsFrom records first active =
    (List.range' first (active - first)).flatMap records ++ records active := by
  have count : active + 1 - first = active - first + 1 := by omega
  have stop : first + 1 * (active - first) = active := by omega
  rw [recordsFrom, count, List.range'_concat, List.flatMap_append, stop, List.flatMap_singleton]

theorem recordsFrom_grown (below : first ≤ active) {more : List LogRecord}
    (same : ∀ k, k ≠ active → records' k = records k) (grown : records' active = records active ++ more) :
    recordsFrom records' first active = recordsFrom records first active ++ more := by
  have before : (List.range' first (active - first)).flatMap records' =
      (List.range' first (active - first)).flatMap records := by
    apply List.flatMap_congr
    intro k member
    obtain ⟨low, high⟩ := List.mem_range'_1.mp member
    exact same k (by omega)
  rw [recordsFrom_last below, recordsFrom_last below, before, grown, List.append_assoc]

theorem recordsFrom_opened (below : first ≤ active)
    (same : ∀ k, k ≠ active + 1 → records' k = records k) (empty : records' (active + 1) = []) :
    recordsFrom records' first (active + 1) = recordsFrom records first active := by
  have stop : active + 1 - first = active + 1 - first := rfl
  rw [recordsFrom_last (by omega), empty, List.append_nil]
  apply List.flatMap_congr
  intro k member
  obtain ⟨low, high⟩ := List.mem_range'_1.mp member
  exact same k (by omega)

theorem take_longer (start : history <+: history') (inside : n ≤ history.length) :
    history'.take n = history.take n := by
  obtain ⟨later, rfl⟩ := start
  exact List.take_append_of_le_length inside

theorem Tail.longer (tail : Tail records history starts active n first)
    (start : history <+: history') (inside : n ≤ history.length) :
    Tail records history' starts active n first := by
  refine ⟨tail.below, tail.start, ?_⟩
  rw [take_longer start inside, take_longer start (tail.start.trans inside)]
  exact tail.same

theorem Tail.grown (tail : Tail records history starts active n first) {more : List LogRecord}
    (same : ∀ k, k ≠ active → records' k = records k) (grown : records' active = records active ++ more)
    (next : more <+: history.drop n) :
    Tail records' history starts active (n + more.length) first := by
  refine ⟨tail.below, Nat.le_add_right_of_le tail.start, ?_⟩
  rw [List.take_add, tail.same, ← List.prefix_iff_eq_take.mp next, List.append_assoc,
    recordsFrom_grown tail.below same grown]

theorem Tail.opened (tail : Tail records history starts active n first)
    (same : ∀ k, k ≠ active + 1 → records' k = records k) (empty : records' (active + 1) = [])
    (starts' : Nat) : Tail records' history (Function.update starts (active + 1) starts') (active + 1)
      n first := by
  have other : first ≠ active + 1 := Nat.ne_of_lt (Nat.lt_succ_of_le tail.below)
  refine ⟨Nat.le_succ_of_le tail.below, ?_, ?_⟩
  · rw [Function.update_of_ne other]
    exact tail.start
  · rw [Function.update_of_ne other, recordsFrom_opened tail.below same empty]
    exact tail.same

theorem tail_opened (empty : records (active + 1) = []) :
    Tail records history (Function.update starts (active + 1) n) (active + 1) n (active + 1) := by
  refine ⟨le_rfl, (Function.update_self ..).le, ?_⟩
  rw [Function.update_self, recordsFrom_last le_rfl, Nat.sub_self, empty]
  simp

theorem Tail.congr (tail : Tail records history starts active n first)
    (same : ∀ k, first ≤ k → records' k = records k) :
    Tail records' history starts active n first := by
  refine ⟨tail.below, tail.start, ?_⟩
  rw [recordsFrom_congr fun k low _ => same k low]
  exact tail.same

theorem Image.mono (image : Image history starts active n number checkpoint)
    (same : history'.take (starts number) = history.take (starts number))
    (start : starts' number = starts number) (longer : active ≤ active') (inside : starts number ≤ n') :
    Image history' starts' active' n' number checkpoint := by
  refine ⟨image.positive, image.below.trans longer, start.trans_le inside, ?_⟩
  rw [start, same]
  exact image.state

theorem Image.longer (image : Image history starts active n number checkpoint)
    (start : history <+: history') (inside : n ≤ history.length) (more : n ≤ n') :
    Image history' starts active n' number checkpoint :=
  image.mono (take_longer start (image.start.trans inside)) rfl le_rfl (image.start.trans more)

theorem Image.opened (image : Image history starts active n number checkpoint) {start : Nat} :
    Image history (Function.update starts (active + 1) start) (active + 1) n number checkpoint :=
  image.mono rfl (Function.update_of_ne (Nat.ne_of_lt (Nat.lt_succ_of_le image.below)) _ _)
    (Nat.le_succ _) image.start

theorem records_absent {k : Nat} (absent : k ∉ disk.segments) : disk.records c k = [] := by
  rw [Disk.records, Std.ExtTreeMap.getD_eq_fallback absent]
  rfl

theorem records_opened {k : Nat} (fresh : k ∉ disk.segments)
    (segments : disk'.segments = disk.segments.insertIfNew k []) :
    (∀ other, other ≠ k → disk'.records c other = disk.records c other) ∧
      disk'.records c k = [] := by
  have lookup : ∀ other, disk'.segments[other]? =
      if k = other then some [] else disk.segments[other]? := by
    intro other
    rw [segments, Std.ExtTreeMap.getElem?_insertIfNew]
    by_cases same : k = other
    · subst same
      simp [fresh]
    · simp [same]
  refine ⟨fun other different => ?_, ?_⟩
  · rw [Disk.records, Disk.records, Std.ExtTreeMap.getD_eq_getD_getElem?, lookup,
      if_neg different.symm, Std.ExtTreeMap.getD_eq_getD_getElem?]
  · rw [Disk.records, Std.ExtTreeMap.getD_eq_getD_getElem?, lookup, if_pos rfl]
    rfl

namespace Stored

theorem longer (stored : Stored c disk history starts active n) (start : history <+: history') :
    Stored c disk history' starts active n := by
  refine ⟨stored.positive, stored.listed, stored.within, stored.last,
    stored.inside.trans start.length_le, stored.origin, fun first low high above => ?_,
    fun number bytes found => ?_⟩
  · exact (stored.tail first low high above).longer start stored.inside
  · obtain ⟨checkpoint, read, image⟩ := stored.checkpoints number bytes found
    exact ⟨checkpoint, read, image.longer start stored.inside le_rfl⟩

theorem same (stored : Stored c disk history starts active n)
    (segments : disk'.segments = disk.segments) (checkpoints : disk'.checkpoints = disk.checkpoints) :
    Stored c disk' history starts active n := by
  have records : disk'.records c = disk.records c := by
    funext k
    rw [Disk.records, Disk.records, segments]
  refine ⟨stored.positive, stored.listed, segments ▸ stored.within, segments ▸ stored.last,
    stored.inside, stored.origin, ?_, checkpoints ▸ stored.checkpoints⟩
  rw [records, checkpoints]
  exact stored.tail

theorem grown (stored : Stored c disk history starts active n) {more : List LogRecord}
    (segments : ∀ k, k ∈ disk'.segments ↔ k ∈ disk.segments)
    (checkpoints : disk'.checkpoints = disk.checkpoints)
    (same : ∀ k, k ≠ active → disk'.records c k = disk.records c k)
    (grown : disk'.records c active = disk.records c active ++ more)
    (next : more <+: history.drop n) : Stored c disk' history starts active (n + more.length) := by
  have length := next.length_le
  rw [List.length_drop] at length
  have inside := stored.inside
  refine ⟨stored.positive, stored.listed, fun k there => stored.within k ((segments k).mp there),
    stored.last.imp_left (segments active).mpr, by omega, stored.origin,
    fun first low high above => ?_, fun number bytes found => ?_⟩
  · rw [checkpoints] at above
    exact (stored.tail first low high above).grown same grown next
  · rw [checkpoints] at found
    obtain ⟨checkpoint, read, image⟩ := stored.checkpoints number bytes found
    exact ⟨checkpoint, read, image.longer List.prefix_rfl inside (Nat.le_add_right _ _)⟩

theorem opened (stored : Stored c disk history starts active n) (room : active + 1 < 10 ^ 6)
    (segments : disk'.segments = disk.segments.insertIfNew (active + 1) [])
    (checkpoints : disk'.checkpoints = disk.checkpoints) :
    Stored c disk' history (Function.update starts (active + 1) n) (active + 1) n := by
  have fresh : active + 1 ∉ disk.segments := fun there =>
    Nat.not_succ_le_self active (stored.within _ there)
  obtain ⟨same, empty⟩ := records_opened (c := c) fresh segments
  have positive := stored.positive
  refine ⟨Nat.le_add_left 1 active, room, fun k there => ?_, .inl ?_, stored.inside, ?_,
    fun first low high above => ?_, fun number bytes found => ?_⟩
  · rw [segments, Std.ExtTreeMap.mem_insertIfNew, Nat.compare_eq_eq] at there
    rcases there with rfl | before
    · exact le_rfl
    · exact Nat.le_succ_of_le (stored.within k before)
  · rw [segments]
    simp
  · rw [Function.update_of_ne (by omega)]
    exact stored.origin
  · rw [checkpoints] at above
    rcases Nat.le_succ_iff.mp high with before | rfl
    · exact (stored.tail first low before above).opened same empty n
    · exact tail_opened empty
  · rw [checkpoints] at found
    obtain ⟨checkpoint, read, image⟩ := stored.checkpoints number bytes found
    exact ⟨checkpoint, read, image.opened⟩

theorem sealed (stored : Stored c disk history starts active n) {bytes : Bytes}
    (read : readCheckpoint c bytes = some checkpoint)
    (image : Image history starts active n number checkpoint)
    (segments : disk'.segments = disk.segments)
    (checkpoints : disk'.checkpoints = disk.checkpoints.insert number bytes) :
    Stored c disk' history starts active n := by
  have records : disk'.records c = disk.records c := by
    funext k
    rw [Disk.records, Disk.records, segments]
  refine ⟨stored.positive, stored.listed, segments ▸ stored.within, segments ▸ stored.last,
    stored.inside, stored.origin, fun first low high above => ?_, fun other bytes' found => ?_⟩
  · rw [records]
    refine stored.tail first low high fun other member => above other ?_
    rw [checkpoints]
    exact Std.ExtTreeMap.mem_insert.mpr (.inr member)
  · rw [checkpoints, getElem?_insert] at found
    split at found
    · subst other
      cases found
      exact ⟨checkpoint, read, image⟩
    · exact stored.checkpoints other bytes' found

theorem removed (stored : Stored c disk history starts active n) {segment newest : Nat}
    (there : newest ∈ disk.checkpoints) (before : segment < newest)
    (segments : disk'.segments = disk.segments.erase segment)
    (checkpoints : disk'.checkpoints = disk.checkpoints) :
    Stored c disk' history starts active n := by
  obtain ⟨bytes, found⟩ := Option.isSome_iff_exists.mp
    (Std.ExtTreeMap.mem_iff_isSome_getElem?.mp there)
  obtain ⟨_, -, image⟩ := stored.checkpoints newest bytes found
  have other : segment ≠ active := (Nat.lt_of_lt_of_le before image.below).ne
  refine ⟨stored.positive, stored.listed, fun k member => ?_, ?_, stored.inside, stored.origin,
    fun first low high above => ?_, checkpoints ▸ stored.checkpoints⟩
  · rw [segments] at member
    exact stored.within k (Std.ExtTreeMap.mem_of_mem_erase member)
  · refine stored.last.imp_left fun member => ?_
    rw [segments, Std.ExtTreeMap.mem_erase]
    exact ⟨fun same => other (Nat.compare_eq_eq.mp same), member⟩
  · rw [checkpoints] at above
    refine (stored.tail first low high above).congr fun k low' => ?_
    have behind := above newest there
    rw [Disk.records, Disk.records, segments, Std.ExtTreeMap.getD_eq_getD_getElem?, getElem?_erase,
      if_neg (by omega), Std.ExtTreeMap.getD_eq_getD_getElem?]

theorem dropped (stored : Stored c disk history starts active n) {newest : Nat}
    (there : newest ∈ disk.checkpoints) (before : number < newest)
    (segments : disk'.segments = disk.segments)
    (checkpoints : disk'.checkpoints = disk.checkpoints.erase number) :
    Stored c disk' history starts active n := by
  have records : disk'.records c = disk.records c := by
    funext k
    rw [Disk.records, Disk.records, segments]
  refine ⟨stored.positive, stored.listed, segments ▸ stored.within, segments ▸ stored.last,
    stored.inside, stored.origin, fun first low high above => ?_, fun other bytes found => ?_⟩
  · rw [records]
    have kept : ∀ other ∈ disk.checkpoints, number ≠ other → other ≤ first := by
      intro other member different
      refine above other ?_
      rw [checkpoints, Std.ExtTreeMap.mem_erase]
      exact ⟨fun same => different (Nat.compare_eq_eq.mp same), member⟩
    have behind := kept newest there before.ne
    refine stored.tail first low high fun other member => ?_
    by_cases same : number = other
    · omega
    · exact kept other member same
  · rw [checkpoints, getElem?_erase] at found
    split at found
    · cases found
    · exact stored.checkpoints other bytes found

end Stored

theorem stored_empty : Stored c {} [] (fun _ => 0) 1 0 := by
  refine ⟨le_rfl, by decide, fun k there => ?_, .inr rfl, le_rfl, rfl, fun first low high above => ?_,
    fun number bytes found => ?_⟩
  · exact absurd there Std.ExtTreeMap.not_mem_empty
  · obtain rfl : first = 1 := Nat.le_antisymm high low
    exact ⟨le_rfl, le_rfl, rfl⟩
  · simp at found

end

/-! ## What `Recover` rebuilds -/

section
variable {c : Codec} {disk : Disk} {history : List LogRecord} {starts : Nat → Nat} {active n : Nat}

theorem alike_trans {s t u : MasterState} (first : s.Alike t) (second : t.Alike u) : s.Alike u :=
  ⟨first.files.trans second.files, fun handle => (first.chunks handle).trans (second.chunks handle),
    first.nextHandle.trans second.nextHandle⟩

theorem flatMap_listed {numbers : List Nat} {first : Nat} {f : Nat → List LogRecord}
    (sorted : numbers.Pairwise (· < ·)) (inside : ∀ k ∈ numbers, first ≤ k ∧ k ≤ active)
    (none : ∀ k, first ≤ k → k ∉ numbers → f k = []) :
    numbers.flatMap f = recordsFrom f first active := by
  have same : numbers = (List.range' first (active + 1 - first)).filter (· ∈ numbers) := by
    refine sorted.eq_of_mem_iff ((List.pairwise_lt_range' 1).filter _) fun k => ?_
    rw [List.mem_filter, List.mem_range'_1, decide_eq_true_iff]
    refine ⟨fun member => ⟨?_, member⟩, fun both => both.2⟩
    obtain ⟨low, high⟩ := inside k member
    omega
  have all : ∀ others : List Nat, (∀ k ∈ others, first ≤ k) →
      (others.filter (· ∈ numbers)).flatMap f = others.flatMap f := by
    intro others
    induction others with
    | nil => exact fun _ => rfl
    | cons k others ih =>
        intro low
        have rest := ih fun k member => low k (List.mem_cons_of_mem _ member)
        rw [List.filter_cons, List.flatMap_cons]
        by_cases member : k ∈ numbers
        · rw [if_pos (decide_eq_true member), List.flatMap_cons, rest]
        · rw [if_neg (by simpa using member), none k (low k List.mem_cons_self) member, rest]
          rfl
  rw [recordsFrom, ← all _ fun k member => (List.mem_range'_1.mp member).1, ← same]

theorem Stored.loaded (stored : Stored c disk history starts active n) :
    1 ≤ (loadState c disk).1 ∧ (loadState c disk).1 ≤ active ∧
      (∀ number ∈ disk.checkpoints, number ≤ (loadState c disk).1) ∧
      (loadState c disk).2.Alike
        (({} : MasterState).replay (history.take (starts (loadState c disk).1))) := by
  have small : ∀ number ∈ disk.checkpoints, number ∈ disk.listCheckpoints := by
    intro number there
    obtain ⟨bytes, found⟩ := Option.isSome_iff_exists.mp
      (Std.ExtTreeMap.mem_iff_isSome_getElem?.mp there)
    obtain ⟨_, -, image⟩ := stored.checkpoints number bytes found
    exact mem_listCheckpoints.mpr ⟨there, Nat.lt_of_le_of_lt image.below stored.listed⟩
  obtain empty | ⟨before, last, split⟩ := List.eq_nil_or_concat disk.listCheckpoints
  · have state : loadState c disk = (1, {}) := by
      rw [loadState, loadLatest, empty]
      rfl
    rw [state]
    refine ⟨le_rfl, stored.positive, fun number there => ?_, ?_⟩
    · have := small number there
      rw [empty] at this
      cases this
    · rw [stored.origin]
      exact ⟨rfl, fun _ => rfl, rfl⟩
  · rw [List.concat_eq_append] at split
    have listed : last ∈ disk.listCheckpoints := by
      rw [split]
      exact List.mem_append_right _ (List.mem_singleton_self _)
    obtain ⟨bytes, found⟩ := Option.isSome_iff_exists.mp
      (Std.ExtTreeMap.mem_iff_isSome_getElem?.mp (mem_listCheckpoints.mp listed).1)
    obtain ⟨checkpoint, read, image⟩ := stored.checkpoints last bytes found
    have latest : loadLatest c disk = some (last, checkpoint) := by
      rw [loadLatest, split, List.reverse_append, List.reverse_singleton, List.singleton_append,
        List.findSome?_cons, Std.ExtTreeMap.getD_eq_getD_getElem?, found, Option.getD_some, read]
      rfl
    have positive := image.positive
    have state : loadState c disk = (last, .load checkpoint) := by
      rw [loadState, latest]
      exact if_pos (by omega)
    rw [state]
    refine ⟨positive.le, image.below, fun number there => ?_, ?_⟩
    · have member := small number there
      have sorted := sorted_listCheckpoints disk
      rw [split] at member sorted
      rcases List.mem_append.mp member with early | late
      · exact ((List.pairwise_append.mp sorted).2.2 number early last
          (List.mem_singleton_self _)).le
      · exact (List.mem_singleton.mp late).le
    · obtain ⟨m, plain, alike, rfl⟩ := image.state
      exact alike_trans plain.load_toCheckpoint alike

theorem Stored.active_eq (stored : Stored c disk history starts active n) :
    (recover c disk).active = active := by
  obtain ⟨low, high, -⟩ := stored.loaded
  have listed : ∀ k ∈ disk.listSegments, k ≤ active := fun k member =>
    stored.within k (mem_listSegments.mp member).1
  have most : disk.listSegments.getLast?.getD 1 ≤ active := by
    cases last : disk.listSegments.getLast? with
    | none => exact stored.positive
    | some k => exact listed k (List.mem_of_getLast? last)
  refine Nat.le_antisymm (max_le most high) ?_
  rcases stored.last with there | rfl
  · exact le_active (mem_listSegments.mpr ⟨there, stored.listed⟩)
  · exact low.trans first_le_active

theorem Stored.records_eq (stored : Stored c disk history starts active n) :
    (recover c disk).records = recordsFrom (disk.records c) (loadState c disk).1 active := by
  refine flatMap_listed ((sorted_listSegments disk).filter _) (fun k member => ?_) fun k low absent => ?_
  · obtain ⟨listed, first⟩ := List.mem_filter.mp member
    exact ⟨of_decide_eq_true first, stored.within k (mem_listSegments.mp listed).1⟩
  · refine records_absent fun there => absent ?_
    rw [List.mem_filter, decide_eq_true_iff]
    exact ⟨mem_listSegments.mpr ⟨there, Nat.lt_of_le_of_lt (stored.within k there) stored.listed⟩, low⟩

theorem Stored.recovered (stored : Stored c disk history starts active n) :
    history.take (starts (loadState c disk).1) ++ (recover c disk).records = history.take n ∧
      (recover c disk).state = (({} : MasterState).replay (history.take n)).recomputeRefcounts := by
  obtain ⟨low, high, above, alike⟩ := stored.loaded
  have tail := stored.tail _ low high above
  have records : history.take (starts (loadState c disk).1) ++ (recover c disk).records =
      history.take n := by
    rw [stored.records_eq]
    exact tail.same.symm
  refine ⟨records, ?_⟩
  have state : (recover c disk).state =
      ((loadState c disk).2.replay (recover c disk).records).recomputeRefcounts := rfl
  rw [state, (alike.replay _).recomputeRefcounts, ← records, MasterState.replay, MasterState.replay,
    ← List.foldl_append]
  rfl

theorem Stored.cut (stored : Stored c disk history starts active n) :
    Stored c disk (history.take n) starts active n := by
  have same : ∀ k ≤ n, (history.take n).take k = history.take k := by
    intro k small
    rw [List.take_take, Nat.min_eq_left small]
  refine ⟨stored.positive, stored.listed, stored.within, stored.last, ?_, stored.origin,
    fun first low high above => ?_, fun number bytes found => ?_⟩
  · rw [List.length_take]
    exact le_min le_rfl stored.inside
  · have tail := stored.tail first low high above
    refine ⟨tail.below, tail.start, ?_⟩
    rw [same n le_rfl, same _ tail.start]
    exact tail.same
  · obtain ⟨checkpoint, read, image⟩ := stored.checkpoints number bytes found
    exact ⟨checkpoint, read, image.mono (same _ image.start) rfl le_rfl image.start⟩

end

section
variable {c : Codec} {s : State} {active n : Nat}

theorem records_restart (k : Nat) : (restart c s).disk.records c k = s.disk.records c k := by
  have bytes : (restart c s).disk.segments.getD k [] =
      ((recover c s.disk).segments[k]?).getD [] := by
    show ((recover c s.disk).segments.insertIfNew (recover c s.disk).active []).getD k [] = _
    rw [Std.ExtTreeMap.getD_insertIfNew, Std.ExtTreeMap.getD_eq_getD_getElem?]
    split
    case isTrue new =>
      obtain rfl := Nat.compare_eq_eq.mp new.1
      rw [Std.ExtTreeMap.getElem?_eq_none new.2]
      rfl
    case isFalse => rfl
  rw [Disk.records, Disk.records, bytes, getElem?_recover, Std.ExtTreeMap.getD_eq_getD_getElem?]
  split
  · cases s.disk.segments[k]? with
    | none => rfl
    | some file => exact (readSegment_truncateTorn c file).1
  · rfl

theorem mem_segments_restart {k : Nat} : k ∈ (restart c s).disk.segments ↔
    k = (recover c s.disk).active ∨ k ∈ s.disk.segments := by
  show k ∈ (recover c s.disk).segments.insertIfNew (recover c s.disk).active [] ↔ _
  rw [Std.ExtTreeMap.mem_insertIfNew, Nat.compare_eq_eq, eq_comm,
    Std.ExtTreeMap.mem_iff_isSome_getElem?, getElem?_recover]
  split
  · rw [Option.isSome_map, ← Std.ExtTreeMap.mem_iff_isSome_getElem?]
  · rw [← Std.ExtTreeMap.mem_iff_isSome_getElem?]

theorem Stored.restarted (stored : Stored c s.disk s.history s.starts active n) :
    (restart c s).history = s.history.take n ∧ (restart c s).starts = s.starts ∧
      Stored c (restart c s).disk (s.history.take n) s.starts active n := by
  obtain ⟨history, -⟩ := stored.recovered
  have activeEq := stored.active_eq
  have length : (s.history.take n).length = n := by
    rw [List.length_take, Nat.min_eq_left stored.inside]
  have above : ∀ number ∈ s.disk.checkpoints, number ≤ active := by
    intro number there
    obtain ⟨bytes, found⟩ := Option.isSome_iff_exists.mp
      (Std.ExtTreeMap.mem_iff_isSome_getElem?.mp there)
    obtain ⟨_, -, image⟩ := stored.checkpoints number bytes found
    exact image.below
  have tail := stored.tail active stored.positive le_rfl above
  have start : n - (s.disk.records c active).length = s.starts active := by
    have total := congrArg List.length tail.same
    rw [length, List.length_append, List.length_take, Nat.min_eq_left (tail.start.trans stored.inside),
      recordsFrom_last le_rfl, Nat.sub_self] at total
    simp only [List.range'_zero, List.flatMap_nil, List.nil_append] at total
    omega
  have starts : (restart c s).starts = s.starts := by
    have opened : (readSegment c ((restart c s).disk.segments.getD (recover c s.disk).active [])).records
        = s.disk.records c active := by
      rw [activeEq]
      exact records_restart active
    show Function.update s.starts (recover c s.disk).active ((s.history.take _ ++ _).length -
      (readSegment c ((restart c s).disk.segments.getD (recover c s.disk).active [])).records.length) = _
    rw [opened, history, length, start, activeEq, Function.update_eq_self]
  refine ⟨history, starts, ?_⟩
  have cut := stored.cut
  have segments : ∀ k, k ∈ (restart c s).disk.segments ↔ k = active ∨ k ∈ s.disk.segments := by
    intro k
    rw [mem_segments_restart, activeEq]
  refine ⟨cut.positive, cut.listed, fun k there => ?_, .inl ((segments active).mpr (.inl rfl)),
    cut.inside, cut.origin, fun first low high all => ?_, cut.checkpoints⟩
  · rcases (segments k).mp there with rfl | before
    · exact le_rfl
    · exact cut.within k before
  · exact (cut.tail first low high all).congr fun k _ => records_restart k

end

end Gfs.Master.OpLog
