import Gfs.Chunkserver.DataBuffer
import Mathlib.Algebra.Order.BigOperators.Group.List
import Mathlib.Data.List.Infix
import Mathlib.Data.List.Nodup
import Mathlib.Data.List.Perm.Basic

/-!
# The data buffer after any calls

The list and the index have the same keys, the counter is the sum over the list, and a `Put` takes
from the old end no more than it needs.
-/

namespace Gfs.Chunkserver.DataBuffer

inductive Operation
  | put (key : BufferKey) (data : Bytes)
  | take (key : BufferKey)
  | sizeOf (key : BufferKey)

def apply (buffer : DataBuffer) : Operation → DataBuffer
  | .put key data => buffer.put key data
  | .take key => (buffer.take key).elim buffer (·.2)
  | .sizeOf _ => buffer

def run (capacity : Nat) (operations : List Operation) : DataBuffer :=
  operations.foldl apply { capacity := capacity }

abbrev Contents := List (BufferKey × Bytes)

/-- The entries, the oldest first. -/
def contents (buffer : DataBuffer) : Contents :=
  buffer.lru.reverse.map fun entry => (entry.key, entry.data)

def sizes (entries : Contents) : Nat := (entries.map (·.2.length)).sum

structure Tidy (buffer : DataBuffer) : Prop where
  nodes : ∀ entry ∈ buffer.lru, entry.node < buffer.nextNode
  distinct : (buffer.lru.map (·.node)).Nodup
  keys : (buffer.lru.map (·.key)).Nodup
  index : buffer.index.Perm (buffer.lru.map fun entry => (entry.key, entry.node))
  used : buffer.used = (buffer.lru.map (·.data.length)).sum
  word : buffer.used < 2 ^ 64
  bound : buffer.used ≤ buffer.capacity ∨ buffer.lru.length = 1

section
variable {buffer : DataBuffer} {entry other : BufferEntry} {key : BufferKey} {data : Bytes}

theorem release_eq {used size : Nat} (word : used < 2 ^ 64) (fits : size ≤ used) :
    release used size = used - size := by
  unfold release u64
  rw [Nat.mod_eq_of_lt (fits.trans_lt word)]
  omega

theorem Tidy.same_node (tidy : Tidy buffer) (member : entry ∈ buffer.lru)
    (there : other ∈ buffer.lru) (same : entry.node = other.node) : entry = other :=
  List.inj_on_of_nodup_map tidy.distinct member there same

theorem Tidy.same_key (tidy : Tidy buffer) (member : entry ∈ buffer.lru)
    (there : other ∈ buffer.lru) (same : entry.key = other.key) : entry = other :=
  List.inj_on_of_nodup_map tidy.keys member there same

theorem Tidy.unlink_lru (tidy : Tidy buffer) (member : entry ∈ buffer.lru) :
    (buffer.unlink entry).lru = buffer.lru.filter (·.key ≠ entry.key) := by
  apply List.filter_congr
  intro other there
  apply decide_eq_decide.mpr
  apply not_congr
  constructor
  · intro same
    rw [tidy.same_node there member same]
  · intro same
    rw [tidy.same_key there member same]

theorem Tidy.lru_perm (tidy : Tidy buffer) (member : entry ∈ buffer.lru) :
    buffer.lru.Perm (entry :: (buffer.unlink entry).lru) := by
  have whole : buffer.lru.Nodup := List.Nodup.of_map _ tidy.distinct
  refine (List.perm_cons_erase member).trans (List.Perm.cons _ (List.Perm.of_eq ?_))
  rw [whole.erase_eq_filter]
  apply List.filter_congr
  intro other there
  by_cases same : other = entry
  · simp [same]
  · have apart := mt (tidy.same_node there member) same
    simp [same, apart]

theorem Tidy.unlink_used (tidy : Tidy buffer) (member : entry ∈ buffer.lru) :
    (buffer.unlink entry).used + entry.data.length = buffer.used := by
  have total := ((tidy.lru_perm member).map fun entry => entry.data.length).sum_eq
  rw [← tidy.used, List.map_cons, List.sum_cons] at total
  have fits : entry.data.length ≤ buffer.used := by omega
  show release buffer.used entry.data.length + entry.data.length = buffer.used
  rw [release_eq tidy.word fits]
  omega

theorem Tidy.unlink (tidy : Tidy buffer) (member : entry ∈ buffer.lru) :
    Tidy (buffer.unlink entry) := by
  have released := tidy.unlink_used member
  have perm := tidy.lru_perm member
  have part : (buffer.unlink entry).lru.Sublist buffer.lru := List.filter_sublist
  have used : (buffer.unlink entry).used =
      ((buffer.unlink entry).lru.map (·.data.length)).sum := by
    have total := (perm.map fun entry => entry.data.length).sum_eq
    rw [← tidy.used, List.map_cons, List.sum_cons] at total
    omega
  constructor
  · intro other there
    exact tidy.nodes other (part.subset there)
  · exact tidy.distinct.sublist (part.map _)
  · exact tidy.keys.sublist (part.map _)
  · rw [tidy.unlink_lru member]
    refine (tidy.index.filter _).trans (List.Perm.of_eq ?_)
    rw [List.filter_map]
    rfl
  · exact used
  · exact lt_of_le_of_lt (by omega) tidy.word
  · show (buffer.unlink entry).used ≤ buffer.capacity ∨ _
    rcases tidy.bound with below | single
    · left
      omega
    · left
      have length := perm.length_eq
      rw [single, List.length_cons] at length
      have empty : (buffer.unlink entry).lru = [] := List.eq_nil_of_length_eq_zero (by omega)
      rw [used, empty]
      exact Nat.zero_le _

theorem Tidy.indexed (tidy : Tidy buffer) {node : Nat} :
    (key, node) ∈ buffer.index ↔ ∃ entry ∈ buffer.lru, entry.key = key ∧ entry.node = node := by
  rw [tidy.index.mem_iff, List.mem_map]
  simp

theorem find?_unique {α : Type*} {p : α → Bool} {l : List α} {a : α} (member : a ∈ l)
    (holds : p a = true) (only : ∀ b ∈ l, p b = true → b = a) : l.find? p = some a := by
  cases found : l.find? p with
  | none => exact absurd holds (List.find?_eq_none.mp found a member)
  | some b => rw [only b (List.mem_of_find?_eq_some found) (List.find?_some found)]

theorem Tidy.entryOf_eq_some (tidy : Tidy buffer) :
    buffer.entryOf key = some entry ↔ entry ∈ buffer.lru ∧ entry.key = key := by
  constructor
  · intro found
    obtain ⟨node, indexed, listed⟩ := Option.bind_eq_some_iff.mp found
    have member : entry ∈ buffer.lru := List.mem_of_find?_eq_some listed
    have here : entry.node = node := by simpa using List.find?_some listed
    obtain ⟨before, after, split, -⟩ := List.lookup_eq_some_iff.mp indexed
    obtain ⟨other, there, same, node⟩ :=
      tidy.indexed.mp (show (key, node) ∈ buffer.index by simp [split])
    rw [tidy.same_node member there (here.trans node.symm)]
    exact ⟨there, same⟩
  · rintro ⟨member, rfl⟩
    have indexed : buffer.index.lookup entry.key = some entry.node := by
      have held := tidy.indexed.mpr ⟨entry, member, rfl, rfl⟩
      have some : (buffer.index.lookup entry.key).isSome = true :=
        List.lookup_isSome_iff.mpr ⟨_, held, by simp⟩
      obtain ⟨node, found⟩ := Option.isSome_iff_exists.mp some
      obtain ⟨before, after, split, -⟩ := List.lookup_eq_some_iff.mp found
      obtain ⟨other, there, same, rfl⟩ :=
        tidy.indexed.mp (show (entry.key, node) ∈ buffer.index by simp [split])
      rw [found, tidy.same_key there member same]
    unfold entryOf
    rw [indexed, Option.bind_some]
    refine find?_unique member (by simp) fun other there same => ?_
    exact tidy.same_node there member (by simpa using same)

theorem Tidy.entryOf_eq_none (tidy : Tidy buffer) :
    buffer.entryOf key = none ↔ ∀ entry ∈ buffer.lru, entry.key ≠ key := by
  rw [Option.eq_none_iff_forall_ne_some]
  constructor
  · intro none entry member same
    exact none entry (tidy.entryOf_eq_some.mpr ⟨member, same⟩)
  · intro absent entry found
    obtain ⟨member, same⟩ := tidy.entryOf_eq_some.mp found
    exact absent entry member same

theorem Tidy.keys_index (tidy : Tidy buffer) : (buffer.index.map (·.1)).Nodup := by
  rw [(tidy.index.map _).nodup_iff, List.map_map]
  exact tidy.keys

/-! ## The eviction loop -/

structure Evicted (incoming : Nat) (before after : DataBuffer) : Prop where
  tidy : after.Tidy
  capacity : after.capacity = before.capacity
  nextNode : after.nextNode = before.nextNode
  gone : ∃ gone, before.lru = after.lru ++ gone ∧ ∀ entry rest, gone = entry :: rest →
    before.capacity < after.used + entry.data.length + incoming
  room : after.lru = [] ∨ after.used + incoming ≤ after.capacity

theorem Tidy.evict (tidy : Tidy buffer) {incoming rounds : Nat}
    (memory : buffer.used + incoming < 2 ^ 64) (enough : buffer.lru.length ≤ rounds) :
    Evicted incoming buffer (evict incoming rounds buffer) := by
  induction rounds generalizing buffer with
  | zero => exact ⟨tidy, rfl, rfl, ⟨[], by simp [DataBuffer.evict], by simp⟩,
      .inl (List.eq_nil_of_length_eq_zero (by simpa [DataBuffer.evict] using enough))⟩
  | succ rounds ih =>
      unfold DataBuffer.evict
      split
      · rename_i empty
        exact ⟨tidy, rfl, rfl, ⟨[], by simp, by simp⟩, .inl (List.getLast?_eq_none_iff.mp empty)⟩
      · rename_i oldest last
        rw [u64_of_lt memory]
        split
        · rename_i full
          obtain ⟨init, split⟩ := List.getLast?_eq_some_iff.mp last
          have member : oldest ∈ buffer.lru := by simp [split]
          have popped : (buffer.unlink oldest).lru = init := by
            have keys := tidy.keys
            rw [tidy.unlink_lru member, split, List.filter_append]
            rw [split, List.map_append, List.nodup_append] at keys
            have kept : init.filter (·.key ≠ oldest.key) = init := by
              apply List.filter_eq_self.mpr
              intro entry there
              simpa using keys.2.2 entry.key (List.mem_map_of_mem there) oldest.key (by simp)
            simpa using kept
          have released := tidy.unlink_used member
          have old := tidy
          obtain ⟨tidy, capacity, nextNode, ⟨gone, kept, needed⟩, room⟩ :=
            ih (tidy.unlink member) (by omega) (by rw [popped]; simp [split] at enough; omega)
          refine ⟨tidy, capacity, nextNode, ⟨gone ++ [oldest], ?_, ?_⟩, room⟩
          · rw [← List.append_assoc, ← kept, popped, split]
          · intro entry rest first
            cases gone with
            | nil =>
                obtain rfl := List.head_eq_of_cons_eq first
                have same : (DataBuffer.evict incoming rounds (buffer.unlink oldest)).used =
                    (buffer.unlink oldest).used := by
                  rw [tidy.used, (old.unlink member).used, kept, List.append_nil]
                omega
            | cons newest gone =>
                obtain rfl := List.head_eq_of_cons_eq first
                exact needed _ _ rfl
        · rename_i fits
          exact ⟨tidy, rfl, rfl, ⟨[], by simp, by simp⟩, .inr (Nat.le_of_not_lt fits)⟩

/-! ## The three calls -/

/-- `Put` without the entry that it replaces. -/
def cleared (buffer : DataBuffer) (key : BufferKey) : DataBuffer :=
  (buffer.entryOf key).elim buffer buffer.unlink

theorem Tidy.cleared (tidy : Tidy buffer) (key : BufferKey) :
    (buffer.cleared key).Tidy ∧ (buffer.cleared key).lru = buffer.lru.filter (·.key ≠ key) ∧
      (buffer.cleared key).used ≤ buffer.used ∧
      (buffer.cleared key).capacity = buffer.capacity := by
  unfold DataBuffer.cleared
  cases found : buffer.entryOf key with
  | none =>
      refine ⟨tidy, ?_, le_refl _, rfl⟩
      symm
      apply List.filter_eq_self.mpr
      intro entry member
      simpa using tidy.entryOf_eq_none.mp found entry member
  | some entry =>
      obtain ⟨member, rfl⟩ := tidy.entryOf_eq_some.mp found
      have released := tidy.unlink_used member
      refine ⟨tidy.unlink member, tidy.unlink_lru member, ?_, rfl⟩
      rw [Option.elim_some]
      omega

theorem contents_cleared (tidy : Tidy buffer) :
    (buffer.cleared key).contents = buffer.contents.filter (·.1 ≠ key) := by
  rw [contents, (tidy.cleared key).2.1, contents, List.filter_map, ← List.filter_reverse]
  rfl

theorem Tidy.sizes_contents (tidy : Tidy buffer) : sizes buffer.contents = buffer.used := by
  rw [tidy.used, sizes, contents, List.map_map, List.map_reverse, List.sum_reverse]
  rfl

/-- What a `Put` of a string does to the entries, the oldest first: `gone` is evicted. -/
structure Admits (capacity : Nat) (key : BufferKey) (data : Bytes) (before after : Contents)
    (gone kept : Contents) : Prop where
  split : before.filter (·.1 ≠ key) = gone ++ kept
  after : after = kept ++ [(key, data)]
  room : kept = [] ∨ sizes kept + data.length ≤ capacity
  needed : ∀ older newest, gone = older ++ [newest] →
    capacity < newest.2.length + sizes kept + data.length

/-- The end of `Put`. -/
def link (buffer : DataBuffer) (key : BufferKey) (data : Bytes) : DataBuffer :=
  { buffer with
    used := u64 (buffer.used + data.length)
    lru := ⟨buffer.nextNode, key, data⟩ :: buffer.lru
    index := (key, buffer.nextNode) :: buffer.index.filter (·.1 ≠ key)
    nextNode := buffer.nextNode + 1 }

theorem put_eq (buffer : DataBuffer) (key : BufferKey) (data : Bytes) :
    buffer.put key data =
      (evict data.length (buffer.cleared key).lru.length (buffer.cleared key)).link key data := rfl

theorem Tidy.link (tidy : Tidy buffer) (absent : ∀ entry ∈ buffer.lru, entry.key ≠ key)
    (memory : buffer.used + data.length < 2 ^ 64)
    (room : buffer.lru = [] ∨ buffer.used + data.length ≤ buffer.capacity) :
    (buffer.link key data).Tidy := by
  have same : buffer.index.filter (·.1 ≠ key) = buffer.index := by
    apply List.filter_eq_self.mpr
    rintro ⟨other, node⟩ held
    obtain ⟨entry, member, rfl, -⟩ := tidy.indexed.mp held
    simpa using absent entry member
  unfold DataBuffer.link
  rw [same, u64_of_lt memory]
  constructor
  · intro entry member
    rcases List.mem_cons.mp member with rfl | old
    · exact Nat.lt_succ_self _
    · exact Nat.lt_succ_of_lt (tidy.nodes entry old)
  · refine List.nodup_cons.mpr ⟨?_, tidy.distinct⟩
    intro member
    obtain ⟨entry, there, same⟩ := List.mem_map.mp member
    exact (tidy.nodes entry there).ne same
  · refine List.nodup_cons.mpr ⟨?_, tidy.keys⟩
    intro member
    obtain ⟨entry, there, same⟩ := List.mem_map.mp member
    exact absent entry there same
  · exact tidy.index.cons _
  · rw [List.map_cons, List.sum_cons, ← tidy.used, Nat.add_comm]
  · exact memory
  · rcases room with empty | below
    · right
      simp [empty]
    · exact .inl below

theorem contents_link : (buffer.link key data).contents = buffer.contents ++ [(key, data)] := by
  simp [contents, DataBuffer.link]

theorem Tidy.put (tidy : Tidy buffer) (key : BufferKey) (memory : buffer.used + data.length < 2 ^ 64) :
    (buffer.put key data).Tidy ∧ (buffer.put key data).capacity = buffer.capacity ∧
      ∃ gone kept, Admits buffer.capacity key data buffer.contents (buffer.put key data).contents
        gone kept := by
  obtain ⟨fresh, cleared, less, capacity⟩ := tidy.cleared key
  obtain ⟨roomy, same, -, ⟨gone, kept, needed⟩, room⟩ :=
    fresh.evict (show (buffer.cleared key).used + data.length < 2 ^ 64 by omega) (le_refl _)
  rw [put_eq]
  generalize DataBuffer.evict data.length (buffer.cleared key).lru.length (buffer.cleared key) =
    after at *
  have absent : ∀ entry ∈ after.lru, entry.key ≠ key := by
    intro entry member
    have there : entry ∈ (buffer.cleared key).lru := by simp [kept, member]
    rw [cleared] at there
    simpa using (List.mem_filter.mp there).2
  have smaller : after.used ≤ (buffer.cleared key).used := by
    rw [roomy.used, fresh.used, kept, List.map_append, List.sum_append]
    exact Nat.le_add_right _ _
  have split : buffer.contents.filter (·.1 ≠ key) =
      gone.reverse.map (fun entry => (entry.key, entry.data)) ++ after.contents := by
    rw [← contents_cleared tidy, contents, kept, List.reverse_append, List.map_append]
    rfl
  refine ⟨roomy.link absent (by omega) room, same.trans capacity, _, _, split, contents_link,
    ?_, ?_⟩
  · rw [roomy.sizes_contents, ← capacity, ← same]
    exact room.imp_left fun empty => by simp [contents, empty]
  · intro older newest last
    cases gone with
    | nil => simp at last
    | cons entry rest =>
        rw [List.reverse_cons, List.map_append] at last
        obtain rfl := List.head_eq_of_cons_eq (List.append_inj' last rfl).2
        have full := needed entry rest rfl
        rw [roomy.sizes_contents, ← capacity]
        show _ < entry.data.length + after.used + data.length
        omega

theorem Tidy.take (tidy : Tidy buffer) (key : BufferKey) :
    (buffer.apply (.take key)).Tidy ∧ (buffer.apply (.take key)).capacity = buffer.capacity ∧
      (buffer.apply (.take key)).contents = buffer.contents.filter (·.1 ≠ key) := by
  have same : buffer.apply (.take key) = buffer.cleared key := by
    rw [apply, DataBuffer.take, DataBuffer.cleared]
    cases buffer.entryOf key with
    | none => rfl
    | some entry => rfl
  rw [same]
  obtain ⟨fresh, -, -, capacity⟩ := tidy.cleared key
  exact ⟨fresh, capacity, contents_cleared tidy⟩

theorem Tidy.mem_contents (tidy : Tidy buffer) :
    (key, data) ∈ buffer.contents ↔ (buffer.take key).map (·.1) = some data := by
  have there : (key, data) ∈ buffer.contents ↔
      ∃ entry ∈ buffer.lru, entry.key = key ∧ entry.data = data := by
    simp [contents]
  rw [there, DataBuffer.take, Option.map_map, Option.map_eq_some_iff]
  constructor
  · rintro ⟨entry, member, same, is⟩
    exact ⟨entry, tidy.entryOf_eq_some.mpr ⟨member, same⟩, is⟩
  · rintro ⟨entry, found, is⟩
    obtain ⟨member, same⟩ := tidy.entryOf_eq_some.mp found
    exact ⟨entry, member, same, is⟩

theorem Tidy.once (tidy : Tidy buffer) {data' : Bytes} (member : (key, data) ∈ buffer.contents)
    (there : (key, data') ∈ buffer.contents) : data = data' := by
  rw [tidy.mem_contents] at member there
  exact Option.some.inj (member.symm.trans there)

end

/-! ## Every sequence of calls -/

/-- The strings of the buffer and the one that comes are in memory together. -/
def InMemory (capacity : Nat) (operations : List Operation) : Prop :=
  ∀ before key data, before ++ [.put key data] <+: operations →
    sizes (run capacity before).contents + data.length < 2 ^ 64

def Operation.put? : Operation → Option (BufferKey × Bytes)
  | .put key data => some (key, data)
  | _ => none

/-- The call replaces the value of the key or takes it. -/
def Operation.Ends (key : BufferKey) : Operation → Prop
  | .put other _ => other = key
  | .take other => other = key
  | .sizeOf _ => False

/-- A `Put` of another key makes the entry go. -/
def Evicts (buffer : DataBuffer) (key : BufferKey) : Operation → Prop
  | .put other data => other ≠ key ∧ key ∈ buffer.contents.map (·.1) ∧
      key ∉ (buffer.put other data).contents.map (·.1)
  | _ => False

/-- The value of the last `Put` of the key, not taken since and not evicted. -/
def LastPut (capacity : Nat) (operations : List Operation) (key : BufferKey) (data : Bytes) :
    Prop :=
  ∃ before after, operations = before ++ .put key data :: after ∧
    ∀ middle operation, middle ++ [operation] <+: after → ¬operation.Ends key ∧
      ¬Evicts (run capacity (before ++ .put key data :: middle)) key operation

section
variable {capacity : Nat} {operations : List Operation} {operation : Operation}
variable {buffer : DataBuffer} {key : BufferKey} {data : Bytes}

theorem run_append_singleton :
    run capacity (operations ++ [operation]) = (run capacity operations).apply operation := by
  simp [run, List.foldl_append]

theorem lastPut_append :
    LastPut capacity (operations ++ [operation]) key data ↔
      operation = .put key data ∨ (LastPut capacity operations key data ∧ ¬operation.Ends key ∧
        ¬Evicts (run capacity operations) key operation) := by
  constructor
  · rintro ⟨before, after, split, since⟩
    induction after using List.reverseRecOn with
    | nil => exact .inl (List.head_eq_of_cons_eq (List.append_inj' split rfl).2)
    | append_singleton after last =>
        rw [← List.cons_append, ← List.append_assoc] at split
        obtain ⟨rfl, same⟩ := List.append_inj' split rfl
        obtain rfl := List.head_eq_of_cons_eq same
        refine .inr ⟨⟨before, after, rfl, fun middle operation earlier => ?_⟩, ?_⟩
        · exact since middle operation (earlier.trans (List.prefix_append _ _))
        · exact since after _ (List.prefix_refl _)
  · rintro (rfl | ⟨⟨before, after, rfl, since⟩, last⟩)
    · refine ⟨operations, [], rfl, fun middle operation early => ?_⟩
      simp at early
    · refine ⟨before, after ++ [operation], by simp, fun middle other early => ?_⟩
      rcases List.prefix_concat_iff.mp early with whole | earlier
      · obtain ⟨rfl, same⟩ := List.append_inj' whole rfl
        obtain rfl := List.head_eq_of_cons_eq same
        exact last
      · exact since middle other earlier

theorem Tidy.mem_put (tidy : Tidy buffer) (memory : buffer.used + data.length < 2 ^ 64)
    {other : BufferKey} {value : Bytes} :
    (other, value) ∈ (buffer.put key data).contents ↔ (key = other ∧ data = value) ∨
      ((other, value) ∈ buffer.contents ∧ key ≠ other ∧
        other ∈ (buffer.put key data).contents.map (·.1)) := by
  obtain ⟨-, -, gone, kept, admits⟩ := tidy.put _ memory
  have old : ∀ value, (other, value) ∈ kept → (other, value) ∈ buffer.contents ∧ key ≠ other := by
    intro value member
    have there : (other, value) ∈ buffer.contents.filter (·.1 ≠ key) := by
      rw [admits.split]
      exact List.mem_append_right _ member
    obtain ⟨there, apart⟩ := List.mem_filter.mp there
    exact ⟨there, fun same => of_decide_eq_true apart same.symm⟩
  rw [admits.after]
  constructor
  · intro member
    rcases List.mem_append.mp member with there | last
    · refine .inr ⟨(old value there).1, (old value there).2, ?_⟩
      exact List.mem_map_of_mem member
    · cases List.mem_singleton.mp last
      exact .inl ⟨rfl, rfl⟩
  · rintro (⟨rfl, rfl⟩ | ⟨before, apart, still⟩)
    · simp
    · obtain ⟨⟨_, value'⟩, member, rfl⟩ := List.mem_map.mp still
      rcases List.mem_append.mp member with there | last
      · rw [tidy.once before (old value' there).1]
        exact member
      · cases List.mem_singleton.mp last
        exact absurd rfl apart

theorem InMemory.before (memory : InMemory capacity (operations ++ [operation])) :
    InMemory capacity operations :=
  fun before key data early => memory before key data (early.trans (List.prefix_append _ _))

theorem tidy_run (memory : InMemory capacity operations) :
    (run capacity operations).Tidy ∧ (run capacity operations).capacity = capacity := by
  induction operations using List.reverseRecOn with
  | nil =>
      refine ⟨?_, rfl⟩
      constructor
      · simp [run]
      · simp [run]
      · simp [run]
      · simp [run]
      · rfl
      · exact Nat.two_pow_pos 64
      · exact .inl (Nat.zero_le _)
  | append_singleton operations operation ih =>
      obtain ⟨tidy, same⟩ := ih memory.before
      rw [run_append_singleton]
      cases operation with
      | put key data =>
          have fits := memory operations key data (List.prefix_refl _)
          rw [tidy.sizes_contents] at fits
          obtain ⟨after, kept, -⟩ := tidy.put key fits
          exact ⟨after, kept.trans same⟩
      | take key =>
          obtain ⟨after, kept, -⟩ := tidy.take key
          exact ⟨after, kept.trans same⟩
      | sizeOf key => exact ⟨tidy, same⟩

theorem contents_run (memory : InMemory capacity operations) :
    (key, data) ∈ (run capacity operations).contents ↔ LastPut capacity operations key data := by
  induction operations using List.reverseRecOn with
  | nil =>
      refine iff_of_false (by simp [run, contents]) ?_
      rintro ⟨before, after, split, -⟩
      simp at split
  | append_singleton operations operation ih =>
      obtain ⟨tidy, -⟩ := tidy_run memory.before
      rw [run_append_singleton, lastPut_append, ← ih memory.before]
      cases operation with
      | put other value =>
          have fits := memory operations other value (List.prefix_refl _)
          rw [tidy.sizes_contents] at fits
          rw [apply, tidy.mem_put fits, Operation.put.injEq]
          refine or_congr Iff.rfl (and_congr_right fun member => and_congr_right fun apart => ?_)
          have listed : key ∈ (run capacity operations).contents.map (·.1) :=
            List.mem_map_of_mem member
          simp [Evicts, apart, listed]
      | take other =>
          rw [(tidy.take other).2.2, List.mem_filter, decide_eq_true_iff]
          refine (and_congr_right fun _ => ?_).trans (or_iff_right (by simp)).symm
          exact ⟨fun apart => ⟨fun same => apart same.symm, not_false⟩,
            fun both same => both.1 same.symm⟩
      | sizeOf other => simp [apply, Operation.Ends, Evicts]

theorem contents_sublist (memory : InMemory capacity operations) :
    (run capacity operations).contents.Sublist (operations.filterMap Operation.put?) := by
  induction operations using List.reverseRecOn with
  | nil => simp [run, contents]
  | append_singleton operations operation ih =>
      obtain ⟨tidy, -⟩ := tidy_run memory.before
      have before := ih memory.before
      rw [run_append_singleton, List.filterMap_append]
      cases operation with
      | put other value =>
          have fits := memory operations other value (List.prefix_refl _)
          rw [tidy.sizes_contents] at fits
          obtain ⟨-, -, gone, kept, admits⟩ := tidy.put other fits
          rw [apply, admits.after]
          refine List.Sublist.append (List.Sublist.trans ?_ before) (List.Sublist.refl _)
          refine (List.sublist_append_right gone kept).trans ?_
          rw [← admits.split]
          exact List.filter_sublist
      | take other =>
          rw [(tidy.take other).2.2]
          exact (List.filter_sublist.trans before).trans (List.sublist_append_left _ _)
      | sizeOf other => exact before.trans (List.sublist_append_left _ _)

/-- No capacity up to `2 ^ 63` needs more than the memory there is. -/
theorem inMemory_of_capacity (half : capacity ≤ 2 ^ 63)
    (short : ∀ key data, .put key data ∈ operations → data.length < 2 ^ 63) :
    InMemory capacity operations := by
  induction operations using List.reverseRecOn with
  | nil =>
      intro before key data early
      simp at early
  | append_singleton operations operation ih =>
      have memory := ih fun key data member => short key data (List.mem_append_left _ member)
      intro before key data early
      rcases List.prefix_concat_iff.mp early with whole | earlier
      · obtain ⟨rfl, same⟩ := List.append_inj' whole rfl
        have fits := short key data (by simp [← List.head_eq_of_cons_eq same])
        obtain ⟨tidy, capacity⟩ := tidy_run memory
        rw [tidy.sizes_contents]
        rcases tidy.bound with below | single
        · omega
        · obtain ⟨entry, only⟩ := List.length_eq_one_iff.mp single
          have put := (contents_sublist memory).subset
            (show (entry.key, entry.data) ∈ (run _ before).contents by simp [contents, only])
          obtain ⟨operation, member, is⟩ := List.mem_filterMap.mp put
          have small : entry.data.length < 2 ^ 63 := by
            cases operation with
            | put key data =>
                cases is
                exact short _ _ (List.mem_append_left _ member)
            | take key => cases is
            | sizeOf key => cases is
          have used := tidy.used
          rw [only] at used
          simp only [List.map_cons, List.map_nil, List.sum_cons, List.sum_nil] at used
          omega
      · exact memory before key data earlier

/-- After any calls the buffer is a map within its capacity, and a `Put` evicts the oldest entries
and no more of them than it needs. -/
theorem bounded_map {buffer : DataBuffer} (reached : run capacity operations = buffer)
    (memory : InMemory capacity operations) :
    buffer.used = sizes buffer.contents ∧
      (buffer.lru.map (·.key)).Nodup ∧ (buffer.index.map (·.1)).Nodup ∧
      buffer.index.Perm (buffer.lru.map fun entry => (entry.key, entry.node)) ∧
      (buffer.used ≤ capacity ∨ buffer.lru.length = 1) ∧
      (∀ key data, (buffer.take key).map (·.1) = some data ↔
        LastPut capacity operations key data) ∧
      (∀ key, buffer.sizeOf key = (buffer.take key).map (·.1.length)) ∧
      buffer.contents.Sublist (operations.filterMap Operation.put?) ∧
      (∀ key, (buffer.apply (.take key)).contents = buffer.contents.filter (·.1 ≠ key)) ∧
      ∀ key data, sizes buffer.contents + data.length < 2 ^ 64 → ∃ gone kept,
        Admits capacity key data buffer.contents (buffer.put key data).contents gone kept := by
  subst reached
  obtain ⟨tidy, same⟩ := tidy_run memory
  refine ⟨tidy.sizes_contents.symm, tidy.keys, tidy.keys_index, tidy.index, ?_, ?_, ?_,
    contents_sublist memory, fun key => (tidy.take key).2.2, ?_⟩
  · exact tidy.bound.imp_left fun below => below.trans same.le
  · intro key data
    rw [← tidy.mem_contents, contents_run memory]
  · intro key
    rw [DataBuffer.sizeOf, DataBuffer.take, Option.map_map]
    rfl
  · intro key data fits
    rw [tidy.sizes_contents] at fits
    obtain ⟨-, -, admits⟩ := tidy.put key fits
    rwa [same] at admits

theorem bounded_map_two :
    (run 8 [.put ⟨[], 1⟩ [1, 2, 3], .put ⟨[], 2⟩ [4, 5, 6, 7, 8, 9]]).used = 6 ∧
      LastPut 8 [.put ⟨[], 1⟩ [1, 2, 3], .put ⟨[], 2⟩ [4, 5, 6, 7, 8, 9]] ⟨[], 2⟩
        [4, 5, 6, 7, 8, 9] := by
  obtain ⟨used, -, -, -, -, answers, -⟩ := bounded_map
    (show run 8 [.put ⟨[], 1⟩ [1, 2, 3], .put ⟨[], 2⟩ [4, 5, 6, 7, 8, 9]] = _ from rfl)
    (inMemory_of_capacity (by decide) fun key data member => by
      simp only [List.mem_cons, List.not_mem_nil, or_false, Operation.put.injEq] at member
      rcases member with ⟨-, rfl⟩ | ⟨-, rfl⟩
      · decide
      · decide)
  exact ⟨used.trans (by decide), (answers _ _).mp (by decide)⟩

end

end Gfs.Chunkserver.DataBuffer
