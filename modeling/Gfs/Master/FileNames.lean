import Gfs.Master.OpLog

/-!
# The names of segments and checkpoints

The writers pad a number to at least six digits, the two parsers want exactly six.
-/

namespace Gfs.Master.OpLog

/-- `%06llu`. -/
def padded (number : Nat) : Str :=
  let digits := Nat.toDigits 10 number
  List.replicate (6 - digits.length) '0' ++ digits

/-- `snprintf` into 32 bytes. -/
def numbered (start : Str) (number : Nat) : Str := (start ++ padded number).take 31

def parseNumbered (name start : Str) : Option Nat :=
  if name.length ≠ start.length + 6 ∨ name.take start.length ≠ start then none
  else
    let digits := name.drop start.length
    if digits.all Char.isDigit then some (Nat.ofDigitChars 10 digits 0) else none

def segmentPrefix : Str := "oplog.".toList

def checkpointPrefix : Str := "checkpoint.".toList

/-- The file of `OpLog::SegmentPath`. -/
def segmentName (number : Nat) : Str := numbered segmentPrefix number

/-- The file of `Checkpointer::Path`. -/
def checkpointName (number : Nat) : Str := numbered checkpointPrefix number

def temporaryName (number : Nat) : Str := checkpointName number ++ ".tmp".toList

/-- The names that a `directory_iterator` gives, in any order. -/
abbrev Directory := List Str

namespace Directory

def list (names : Directory) (start : Str) : List Nat :=
  (names.filterMap fun name => parseNumbered name start).mergeSort

/-- `OpLog::ListSegments`. Its own parser reads the digits as `ParseNumbered` does. -/
def listSegments (names : Directory) : List Nat := names.list segmentPrefix

/-- `Checkpointer::List`. -/
def listCheckpoints (names : Directory) : List Nat := names.list checkpointPrefix

end Directory

/-! ## Digits -/

section
variable {start name : Str} {m n : Nat}

theorem ofDigitChars_injective {xs ys : Str} (digits : ∀ c ∈ xs, c.isDigit)
    (digits' : ∀ c ∈ ys, c.isDigit) (length : xs.length = ys.length) {a b : Nat}
    (same : Nat.ofDigitChars 10 xs a = Nat.ofDigitChars 10 ys b) : xs = ys ∧ a = b := by
  induction xs generalizing ys a b with
  | nil =>
      obtain rfl := List.length_eq_zero_iff.mp length.symm
      exact ⟨rfl, by simpa using same⟩
  | cons c xs ih =>
      obtain ⟨d, ys, rfl⟩ := List.exists_cons_of_length_eq_add_one length.symm
      rw [Nat.ofDigitChars_cons, Nat.ofDigitChars_cons] at same
      have digit := digits c List.mem_cons_self
      have digit' := digits' d List.mem_cons_self
      obtain ⟨rest, values⟩ := ih (fun c member => digits c (List.mem_cons_of_mem _ member))
        (fun c member => digits' c (List.mem_cons_of_mem _ member)) (by simpa using length) same
      rw [Char.isDigit_iff_toNat] at digit digit'
      have zero : '0'.toNat = 48 := rfl
      have nine : '9'.toNat = 57 := rfl
      rw [zero] at values digit digit'
      rw [nine] at digit digit'
      have value : c.toNat = d.toNat := by omega
      exact ⟨by rw [rest, Char.toNat_inj.mp value], by omega⟩

theorem ofDigitChars_lt {xs : Str} (digits : ∀ c ∈ xs, c.isDigit) :
    Nat.ofDigitChars 10 xs 0 < 10 ^ xs.length := by
  induction xs with
  | nil => simp
  | cons c xs ih =>
      have digit := digits c List.mem_cons_self
      rw [Char.isDigit_iff_toNat] at digit
      have zero : '0'.toNat = 48 := rfl
      have nine : '9'.toNat = 57 := rfl
      have rest := ih fun c member => digits c (List.mem_cons_of_mem _ member)
      rw [Nat.ofDigitChars_cons, Nat.ofDigitChars_eq_ofDigitChars_zero, List.length_cons, Nat.pow_succ]
      have value : 10 * 0 + (c.toNat - '0'.toNat) ≤ 9 := by omega
      calc _ < 10 ^ xs.length * 9 + 10 ^ xs.length :=
            Nat.add_lt_add_of_le_of_lt (Nat.mul_le_mul_left _ value) rest
        _ = 10 ^ xs.length * 10 := by omega

theorem padded_digits : ∀ c ∈ padded n, c.isDigit := by
  intro c member
  rcases List.mem_append.mp member with zero | digit
  · rw [List.eq_of_mem_replicate zero]
    rfl
  · exact Nat.isDigit_of_mem_toDigits (by decide) (by decide) digit

theorem length_padded_eq : (padded n).length = 6 ↔ n < 10 ^ 6 := by
  rw [← Nat.length_toDigits_le_iff (by decide) (by decide), padded]
  simp only [List.length_append, List.length_replicate]
  omega

theorem length_padded_le (range : n < 2 ^ 64) : (padded n).length ≤ 20 := by
  have short : (Nat.toDigits 10 n).length ≤ 20 :=
    (Nat.length_toDigits_le_iff (by decide) (by decide)).mpr (by omega)
  simp only [padded, List.length_append, List.length_replicate]
  omega

theorem ofDigitChars_padded : Nat.ofDigitChars 10 (padded n) 0 = n := by
  rw [padded, Nat.ofDigitChars_append, Nat.ofDigitChars_replicate_zero, Nat.mul_zero,
    Nat.ofDigitChars_ten_toDigits]

theorem padded_injective (same : padded m = padded n) : m = n := by
  rw [← ofDigitChars_padded (n := m), same, ofDigitChars_padded]

/-! ## Names -/

theorem numbered_eq (short : start.length ≤ 11) (range : n < 2 ^ 64) :
    numbered start n = start ++ padded n := by
  have digits := length_padded_le range
  exact List.take_of_length_le (by rw [List.length_append]; omega)

theorem numbered_injective (short : start.length ≤ 11) (range : m < 2 ^ 64) (range' : n < 2 ^ 64)
    (same : numbered start m = numbered start n) : m = n := by
  rw [numbered_eq short range, numbered_eq short range'] at same
  exact padded_injective (List.append_cancel_left same)

theorem parseNumbered_numbered (short : start.length ≤ 11) (range : n < 2 ^ 64) :
    parseNumbered (numbered start n) start = if n < 10 ^ 6 then some n else none := by
  have digits : (padded n).all Char.isDigit := List.all_eq_true.mpr padded_digits
  rw [numbered_eq short range, parseNumbered, List.take_left, List.drop_left]
  dsimp only
  rw [if_pos digits, ofDigitChars_padded]
  by_cases small : n < 10 ^ 6
  · rw [if_pos small]
    simp [length_padded_eq.mpr small]
  · rw [if_neg small]
    simp [mt length_padded_eq.mp small]

/-- What is read as a number is the name of that number. -/
theorem eq_numbered_of_parseNumbered (short : start.length ≤ 11)
    (parsed : parseNumbered name start = some n) : n < 10 ^ 6 ∧ name = numbered start n := by
  rw [parseNumbered] at parsed
  split at parsed
  case isTrue => cases parsed
  case isFalse accepted =>
    obtain ⟨length, front⟩ := not_or.mp accepted
    rw [not_not] at length front
    dsimp only at parsed
    split at parsed
    case isFalse => cases parsed
    case isTrue digits =>
      have digits := List.all_eq_true.mp digits
      have six : (name.drop start.length).length = 6 := by rw [List.length_drop]; omega
      have value := Option.some.inj parsed
      have small : n < 10 ^ 6 := by
        rw [← value, ← six]
        exact ofDigitChars_lt digits
      have padding : name.drop start.length = padded n := by
        have lengths : (name.drop start.length).length = (padded n).length := by
          rw [six, length_padded_eq.mpr small]
        exact (ofDigitChars_injective digits padded_digits lengths
          (value.trans ofDigitChars_padded.symm)).1
      refine ⟨small, ?_⟩
      rw [numbered_eq short (by omega), ← padding]
      calc name = name.take start.length ++ name.drop start.length := by rw [List.take_append_drop]
        _ = start ++ name.drop start.length := by rw [front]

/-- The name of a checkpoint in the making is longer than what `ParseNumbered` takes. -/
theorem parseNumbered_temporaryName (range : n < 2 ^ 64) :
    parseNumbered (temporaryName n) segmentPrefix = none ∧
      parseNumbered (temporaryName n) checkpointPrefix = none := by
  have whole : temporaryName n = checkpointPrefix ++ (padded n ++ ".tmp".toList) := by
    rw [temporaryName, checkpointName, numbered_eq (by decide) range, List.append_assoc]
  have long : checkpointPrefix.length + 6 < (temporaryName n).length := by
    have padding : 6 ≤ (padded n).length := by
      simp only [padded, List.length_append, List.length_replicate]
      omega
    have ending : ".tmp".toList.length = 4 := rfl
    simp only [whole, List.length_append, ending]
    omega
  constructor
  · refine if_pos (.inl ?_)
    have shorter : segmentPrefix.length ≤ checkpointPrefix.length := by decide
    omega
  · exact if_pos (.inl (by omega))

/-! ## Listings -/

namespace Directory
variable {names before after : Directory}

theorem mem_list : n ∈ names.list start ↔ ∃ name ∈ names, parseNumbered name start = some n := by
  rw [list, List.mem_mergeSort, List.mem_filterMap]

theorem list_sorted : (names.list start).Pairwise (· ≤ ·) := by
  have sorted : (names.list start).Pairwise fun a b => decide (a ≤ b) = true := by
    refine List.pairwise_mergeSort (fun a b c first second => ?_) (fun a b => ?_) _
    · simp only [decide_eq_true_eq] at *
      omega
    · simp only [Bool.or_eq_true, decide_eq_true_eq]
      omega
  exact sorted.imp fun le => by simpa using le

theorem list_perm : (names.list start).Perm (names.filterMap fun name => parseNumbered name start) :=
  List.mergeSort_perm _ _

theorem list_insert (start name : Str) (before after : Directory) :
    ((before ++ name :: after).list start).Perm
    ((parseNumbered name start).toList ++ (before ++ after).list start) := by
  refine list_perm.trans (.trans ?_ (list_perm.symm.append_left _))
  rw [List.filterMap_append, List.filterMap_append]
  cases parsed : parseNumbered name start with
  | none => simp [parsed]
  | some value =>
      rw [List.filterMap_cons, parsed]
      exact List.perm_middle

theorem list_getLast? (short : start.length ≤ 11) (range : n < 10 ^ 6)
    (member : numbered start n ∈ names)
    (newest : ∀ m < 2 ^ 64, numbered start m ∈ names → m ≤ n) :
    (names.list start).getLast? = some n := by
  have listed : n ∈ names.list start := by
    refine mem_list.mpr ⟨_, member, ?_⟩
    rw [parseNumbered_numbered short (by omega), if_pos range]
  have below : ∀ m ∈ names.list start, m ≤ n := by
    intro m inList
    obtain ⟨name, inNames, parsed⟩ := mem_list.mp inList
    obtain ⟨small, rfl⟩ := eq_numbered_of_parseNumbered short parsed
    exact newest m (by omega) inNames
  have sorted : (names.list start).Pairwise (· ≤ ·) := list_sorted
  generalize names.list start = numbers at listed below sorted
  rcases List.eq_nil_or_concat numbers with rfl | ⟨front, last, rfl⟩
  · cases listed
  · rw [List.concat_eq_append] at listed below sorted ⊢
    have last_le := below last (by simp)
    have le_last : n ≤ last := by
      rcases List.mem_append.mp listed with earlier | here
      · exact (List.pairwise_append.mp sorted).2.2 n earlier last List.mem_cons_self
      · exact (List.mem_singleton.mp here).le
    rw [List.getLast?_concat, Nat.le_antisymm le_last last_le]

end Directory

/-- Both listings report the files of the number as that number and as no other one, and see them as
the newest files where they are. -/
structure FoundAgain (number : Nat) : Prop where
  segment : ∀ before after : Directory,
    (before ++ segmentName number :: after).listSegments.Perm
      (number :: (before ++ after).listSegments)
  checkpoint : ∀ before after : Directory,
    (before ++ checkpointName number :: after).listCheckpoints.Perm
      (number :: (before ++ after).listCheckpoints)
  apart : ∀ other < 2 ^ 64, other ≠ number →
    segmentName other ≠ segmentName number ∧ checkpointName other ≠ checkpointName number
  temporary : ∀ before after : Directory,
    (before ++ temporaryName number :: after).listSegments.Perm (before ++ after).listSegments ∧
      (before ++ temporaryName number :: after).listCheckpoints.Perm
        (before ++ after).listCheckpoints
  sorted : ∀ names : Directory,
    names.listSegments.Pairwise (· ≤ ·) ∧ names.listCheckpoints.Pairwise (· ≤ ·)
  newestSegment : ∀ names : Directory, segmentName number ∈ names →
    (∀ other < 2 ^ 64, segmentName other ∈ names → other ≤ number) →
    names.listSegments.getLast? = some number
  newestCheckpoint : ∀ names : Directory, checkpointName number ∈ names →
    (∀ other < 2 ^ 64, checkpointName other ∈ names → other ≤ number) →
    names.listCheckpoints.getLast? = some number

theorem foundAgain_iff {number : Nat} (range : number < 2 ^ 64) :
    FoundAgain number ↔ number < 10 ^ 6 := by
  have segments : segmentPrefix.length ≤ 11 := by decide
  have checkpoints : checkpointPrefix.length ≤ 11 := by decide
  constructor
  · intro found
    by_contra large
    have none : parseNumbered (segmentName number) segmentPrefix = none := by
      rw [segmentName, parseNumbered_numbered segments range, if_neg large]
    have dropped := Directory.list_insert segmentPrefix (segmentName number) [] []
    rw [none] at dropped
    have lengths := ((found.segment [] []).symm.trans dropped).length_eq
    simp [Directory.listSegments, Directory.list] at lengths
  · intro small
    have segment : parseNumbered (segmentName number) segmentPrefix = some number := by
      rw [segmentName, parseNumbered_numbered segments range, if_pos small]
    have checkpoint : parseNumbered (checkpointName number) checkpointPrefix = some number := by
      rw [checkpointName, parseNumbered_numbered checkpoints range, if_pos small]
    obtain ⟨noSegment, noCheckpoint⟩ := parseNumbered_temporaryName range
    refine ⟨?_, ?_, ?_, ?_, ?_, ?_, ?_⟩
    · intro before after
      have added := Directory.list_insert segmentPrefix (segmentName number) before after
      rwa [segment] at added
    · intro before after
      have added := Directory.list_insert checkpointPrefix (checkpointName number) before after
      rwa [checkpoint] at added
    · intro other within different
      exact ⟨fun same => different (numbered_injective segments within range same),
        fun same => different (numbered_injective checkpoints within range same)⟩
    · intro before after
      constructor
      · have kept := Directory.list_insert segmentPrefix (temporaryName number) before after
        rwa [noSegment] at kept
      · have kept := Directory.list_insert checkpointPrefix (temporaryName number) before after
        rwa [noCheckpoint] at kept
    · exact fun names => ⟨Directory.list_sorted, Directory.list_sorted⟩
    · exact fun names => Directory.list_getLast? segments small
    · exact fun names => Directory.list_getLast? checkpoints small

theorem foundAgain_iff_first : FoundAgain 1 ↔ 1 < 10 ^ 6 := foundAgain_iff (by decide)

/-- The millionth segment has a name with seven digits. -/
theorem millionth_lost :
    Directory.listSegments [segmentName 1000000] = [] ∧ ¬ FoundAgain 1000000 := by
  have none : Directory.listSegments [segmentName 1000000] = [] := by
    have parsed : parseNumbered (segmentName 1000000) segmentPrefix = none := by decide +kernel
    simp [Directory.listSegments, Directory.list, parsed]
  refine ⟨none, fun found => ?_⟩
  have reported := (found.segment [] []).length_eq
  rw [List.nil_append, none] at reported
  cases reported

/-! ## The listings of the data directory -/

def Disk.files (disk : Disk) : Directory :=
  disk.segments.keys.map segmentName ++ disk.checkpoints.keys.map checkpointName ++
    disk.temporaries.keys.map temporaryName

theorem parseNumbered_of_head {rest : Str} (nonempty : start ≠ []) (nonempty' : name ≠ [])
    (different : name.head? ≠ start.head?) : parseNumbered (name ++ rest) start = none := by
  refine if_pos (.inr fun same => different ?_)
  obtain ⟨c, start, rfl⟩ := List.exists_cons_of_ne_nil nonempty
  obtain ⟨d, name, rfl⟩ := List.exists_cons_of_ne_nil nonempty'
  rw [List.cons_append, List.length_cons, List.take_succ_cons] at same
  rw [List.head?_cons, List.head?_cons, (List.cons.inj same).1]

theorem filterMap_numbered {numbers : List Nat} (short : start.length ≤ 11)
    (range : ∀ n ∈ numbers, n < 2 ^ 64) :
    (numbers.map (numbered start)).filterMap (fun name => parseNumbered name start) =
      numbers.filter (· < 10 ^ 6) := by
  induction numbers with
  | nil => rfl
  | cons n numbers ih =>
      have parsed := parseNumbered_numbered short (range n List.mem_cons_self)
      have rest := ih fun m member => range m (List.mem_cons_of_mem _ member)
      rw [List.map_cons, List.filter_cons]
      by_cases small : n < 10 ^ 6
      · rw [if_pos small] at parsed
        simp only [List.filterMap_cons, parsed, rest]
        rw [ if_pos (by simpa using small)]
      · rw [if_neg small] at parsed
        simp only [List.filterMap_cons, parsed, rest]
        rw [ if_neg (by simpa using small)]

theorem filterMap_others {numbers : List Nat} {f : Nat → Str}
    (others : ∀ n ∈ numbers, parseNumbered (f n) start = none) :
    (numbers.map f).filterMap (fun name => parseNumbered name start) = [] := by
  rw [List.filterMap_eq_nil_iff]
  intro name member
  obtain ⟨n, listed, rfl⟩ := List.mem_map.mp member
  exact others n listed

theorem list_eq_of_keys {names : Directory} {keys : List Nat} (ordered : keys.Pairwise (· < ·))
    (found : names.filterMap (fun name => parseNumbered name start) = keys.filter (· < 10 ^ 6)) :
    names.list start = keys.filter (· < 10 ^ 6) := by
  have perm : (names.list start).Perm (keys.filter (· < 10 ^ 6)) :=
    found ▸ Directory.list_perm
  refine perm.eq_of_pairwise (fun a b _ _ => Nat.le_antisymm) Directory.list_sorted ?_
  exact (ordered.imp Nat.le_of_lt).sublist List.filter_sublist

theorem keys_ordered (files : Std.ExtTreeMap Nat Bytes) : files.keys.Pairwise (· < ·) :=
  Std.ExtTreeMap.ordered_keys.imp fun lt => Nat.compare_eq_lt.mp lt

theorem Disk.listSegments_files {disk : Disk} (segments : ∀ n ∈ disk.segments, n < 2 ^ 64)
    (checkpoints : ∀ n ∈ disk.checkpoints, n < 2 ^ 64)
    (temporaries : ∀ n ∈ disk.temporaries, n < 2 ^ 64) :
    disk.files.listSegments = disk.listSegments ∧
      disk.files.listCheckpoints = disk.listCheckpoints := by
  have range : ∀ {files : Std.ExtTreeMap Nat Bytes}, (∀ n ∈ files, n < 2 ^ 64) →
      ∀ n ∈ files.keys, n < 2 ^ 64 :=
    fun small n listed => small n (Std.ExtTreeMap.mem_keys.mp listed)
  have ofSegments : ∀ n ∈ disk.segments.keys,
      parseNumbered (segmentName n) checkpointPrefix = none := by
    intro n listed
    rw [segmentName, numbered_eq (by decide) (range segments n listed)]
    exact parseNumbered_of_head (by decide) (by decide) (by decide)
  have ofCheckpoints : ∀ n ∈ disk.checkpoints.keys,
      parseNumbered (checkpointName n) segmentPrefix = none := by
    intro n listed
    rw [checkpointName, numbered_eq (by decide) (range checkpoints n listed)]
    exact parseNumbered_of_head (by decide) (by decide) (by decide)
  have ofTemporaries := fun n listed => parseNumbered_temporaryName (range temporaries n listed)
  constructor
  · refine list_eq_of_keys (keys_ordered _) ?_
    rw [files, List.filterMap_append, List.filterMap_append, filterMap_others ofCheckpoints,
      filterMap_others fun n listed => (ofTemporaries n listed).1, List.append_nil, List.append_nil]
    exact filterMap_numbered (by decide) (range segments)
  · refine list_eq_of_keys (keys_ordered _) ?_
    rw [files, List.filterMap_append, List.filterMap_append, filterMap_others ofSegments,
      filterMap_others fun n listed => (ofTemporaries n listed).2, List.append_nil, List.nil_append]
    exact filterMap_numbered (by decide) (range checkpoints)

end

end Gfs.Master.OpLog
