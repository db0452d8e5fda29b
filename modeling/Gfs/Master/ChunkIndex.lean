import Gfs.Master.Reports
import Mathlib.Data.Set.Card
import Std.Data.ExtTreeSet

/-!
# `master/chunk_table.cc`

The chunk table with its index of the chunks by chunkserver. The index mirrors the locations after
every operation, so the sections can be stated on the table alone.
-/

namespace Gfs.Master
open Lib.Maps

abbrev HeldIndex := Std.ExtTreeMap ServerId (Std.ExtTreeSet Handle)

/-- `chunks_` and `held_by_`. -/
structure IndexedTable where
  chunks : ChunkTable := ∅
  held : HeldIndex := ∅

/-- A chunkserver's set loses the chunk, and the index the set that is then empty. -/
def HeldIndex.drop (handle : Handle) (held : HeldIndex) (server : ServerId) : HeldIndex :=
  match held[server]? with
  | none => held
  | some handles =>
      if (handles.erase handle).isEmpty then held.erase server
      else held.insert server (handles.erase handle)

def HeldIndex.of (held : HeldIndex) (server : ServerId) : Std.ExtTreeSet Handle :=
  held[server]?.getD ∅

namespace IndexedTable

def create (table : IndexedTable) (handle version : Nat) : IndexedTable :=
  { table with chunks := table.chunks.create handle version }

def erase (table : IndexedTable) (handle : Handle) : IndexedTable :=
  match table.chunks[handle]? with
  | none => table
  | some m =>
      { chunks := table.chunks.erase handle
        held := m.locations.keys.foldl (HeldIndex.drop handle) table.held }

def addLocation (table : IndexedTable) (handle : Handle) (server : ServerId) (time : TimePoint) :
    Bool × IndexedTable :=
  match table.chunks[handle]? with
  | none => (false, table)
  | some m =>
      if m.locations.contains server then (false, table)
      else (true,
        { chunks := table.chunks.insert handle (m.addLocation server time)
          held := table.held.insert server ((table.held.of server).insert handle) })

def removeLocation (table : IndexedTable) (handle : Handle) (server : ServerId) :
    Bool × IndexedTable :=
  match table.chunks[handle]? with
  | none => (false, table)
  | some m =>
      if !m.locations.contains server then (false, table)
      else (true,
        { chunks := table.chunks.insert handle (m.removeLocation server)
          held := table.held.drop handle server })

def heldBy (table : IndexedTable) (server : ServerId) : Std.ExtTreeSet Handle :=
  table.held.of server

def heldCount (table : IndexedTable) (server : ServerId) : Nat :=
  match table.held[server]? with
  | none => 0
  | some handles => handles.size

def clear (_ : IndexedTable) : IndexedTable := {}

/-- The index says what the locations say and has no empty set. -/
structure Mirrors (table : IndexedTable) : Prop where
  held : ∀ (server : ServerId) (handle : Handle), handle ∈ table.heldBy server ↔
    ∃ m, table.chunks[handle]? = some m ∧ m.locations.contains server = true
  nonempty : ∀ (server : ServerId) handles, table.held[server]? = some handles →
    handles.isEmpty = false

end IndexedTable

section
variable {held : HeldIndex} {handle other : Handle} {server server' : ServerId}

theorem HeldIndex.mem_drop : other ∈ (held.drop handle server).of server' ↔
    other ∈ held.of server' ∧ ¬(server' = server ∧ other = handle) := by
  unfold HeldIndex.drop HeldIndex.of
  cases found : held[server]? with
  | none =>
      refine ⟨fun member => ⟨member, ?_⟩, And.left⟩
      rintro ⟨rfl, -⟩
      simp [found] at member
  | some handles =>
      dsimp only
      by_cases same : server = server'
      · subst same
        have erased : other ∈ handles.erase handle ↔ other ∈ handles ∧ other ≠ handle := by
          rw [Std.ExtTreeSet.mem_erase, and_comm]
          refine and_congr_right fun _ => not_congr ?_
          exact Std.LawfulEqOrd.compare_eq_iff_eq.trans eq_comm
        split
        · rename_i empty
          rw [getElem?_erase, if_pos rfl, found]
          refine iff_of_false (by simp) ?_
          rintro ⟨member, different⟩
          have left := erased.mpr ⟨member, fun here => different ⟨rfl, here⟩⟩
          rw [Std.ExtTreeSet.isEmpty_iff.mp empty] at left
          exact Std.ExtTreeSet.not_mem_empty left
        · rw [getElem?_insert, if_pos rfl, found]
          simpa using erased
      · have elsewhere : (if (handles.erase handle).isEmpty then held.erase server
            else held.insert server (handles.erase handle))[server']? = held[server']? := by
          split
          · rw [getElem?_erase, if_neg same]
          · rw [getElem?_insert, if_neg same]
        rw [elsewhere]
        exact ⟨fun member => ⟨member, fun both => same both.1.symm⟩, And.left⟩

theorem HeldIndex.drop_nonempty
    (nonempty : ∀ (server : ServerId) handles, held[server]? = some handles →
      handles.isEmpty = false) {handles : Std.ExtTreeSet Handle}
    (found : (held.drop handle server)[server']? = some handles) : handles.isEmpty = false := by
  unfold HeldIndex.drop at found
  split at found
  · exact nonempty server' handles found
  · split at found
    · rw [getElem?_erase] at found
      split at found
      · cases found
      · exact nonempty server' handles found
    · rename_i full
      rw [getElem?_insert] at found
      split at found
      · rw [← Option.some.inj found]
        simpa using full
      · exact nonempty server' handles found

theorem HeldIndex.foldl_drop (servers : List ServerId) (held : HeldIndex) :
    (∀ server' other, other ∈ (servers.foldl (HeldIndex.drop handle) held).of server' ↔
      other ∈ held.of server' ∧ ¬(server' ∈ servers ∧ other = handle)) ∧
      ((∀ (server : ServerId) handles, held[server]? = some handles → handles.isEmpty = false) →
        ∀ (server : ServerId) handles, (servers.foldl (HeldIndex.drop handle) held)[server]? =
          some handles → handles.isEmpty = false) := by
  induction servers generalizing held with
  | nil => simp
  | cons server servers ih =>
      obtain ⟨members, full⟩ := ih (held.drop handle server)
      refine ⟨fun server' other => ?_, fun nonempty => full fun _ _ => drop_nonempty nonempty⟩
      rw [List.foldl_cons, members, mem_drop, List.mem_cons]
      tauto

end

namespace IndexedTable
variable {table : IndexedTable} {handle : Handle} {server : ServerId} {time : TimePoint}

/-! ## The operations on the table alone -/

theorem modify_none {chunks : ChunkTable} {f : ChunkMeta → ChunkMeta}
    (absent : chunks[handle]? = none) : chunks.modify handle f = chunks := by
  refine Std.ExtTreeMap.ext_getElem? fun {other} => ?_
  rw [getElem?_modify]
  split
  · rename_i same
    rw [← same, absent]
    rfl
  · rfl

theorem modify_some {chunks : ChunkTable} {f : ChunkMeta → ChunkMeta} {m : ChunkMeta}
    (found : chunks[handle]? = some m) : chunks.modify handle f = chunks.insert handle (f m) := by
  refine Std.ExtTreeMap.ext_getElem? fun {other} => ?_
  rw [getElem?_modify, getElem?_insert]
  split
  · rename_i same
    rw [← same, found]
    rfl
  · rfl

theorem modify_same {chunks : ChunkTable} {f : ChunkMeta → ChunkMeta} {m : ChunkMeta}
    (found : chunks[handle]? = some m) (same : f m = m) : chunks.modify handle f = chunks := by
  refine Std.ExtTreeMap.ext_getElem? fun {other} => ?_
  rw [modify_some found, same, getElem?_insert]
  split
  · rename_i here
    rw [← here, found]
  · rfl

theorem erase_chunks : (table.erase handle).chunks = table.chunks.erase handle := by
  unfold erase
  cases found : table.chunks[handle]? with
  | none =>
      show table.chunks = table.chunks.erase handle
      refine Std.ExtTreeMap.ext_getElem? fun {other} => ?_
      rw [getElem?_erase]
      split
      · rename_i same
        exact same ▸ found
      · rfl
  | some m => rfl

theorem addLocation_chunks : (table.addLocation handle server time).2.chunks =
    table.chunks.modify handle (·.addLocation server time) := by
  unfold addLocation
  cases found : table.chunks[handle]? with
  | none => exact (modify_none found).symm
  | some m =>
      dsimp only
      split
      · rename_i there
        have kept : m.locations.insertIfNew server time = m.locations := by
          refine Std.ExtTreeMap.ext_getElem? fun {other} => ?_
          rw [Std.ExtTreeMap.getElem?_insertIfNew, if_neg]
          exact fun both => both.2 (Std.ExtTreeMap.contains_iff_mem.mp there)
        exact (modify_same found (by rw [ChunkMeta.addLocation, kept])).symm
      · rw [modify_some found]

theorem removeLocation_chunks : (table.removeLocation handle server).2.chunks =
    table.chunks.modify handle (·.removeLocation server) := by
  unfold removeLocation
  cases found : table.chunks[handle]? with
  | none => exact (modify_none found).symm
  | some m =>
      dsimp only
      split
      · rename_i absent
        have kept : m.locations.erase server = m.locations := by
          refine Std.ExtTreeMap.ext_getElem? fun {other} => ?_
          rw [getElem?_erase]
          split
          · rename_i here
            rw [← here]
            refine (Std.ExtTreeMap.getElem?_eq_none fun there => ?_).symm
            simp [Std.ExtTreeMap.contains_iff_mem.mpr there] at absent
          · rfl
        exact (modify_same found (by rw [ChunkMeta.removeLocation, kept])).symm
      · rw [modify_some found]

/-! ## The index mirrors the locations -/

theorem mirrors_empty : Mirrors {} := by
  refine ⟨fun server handle => ?_, fun server handles found => ?_⟩
  · simp [heldBy, HeldIndex.of]
  · simp at found

theorem Mirrors.create (mirrors : table.Mirrors) {version : Nat} :
    (table.create handle version).Mirrors := by
  refine ⟨fun server other => (mirrors.held server other).trans ?_, mirrors.nonempty⟩
  rw [IndexedTable.create, ChunkTable.create, Std.ExtTreeMap.getElem?_insertIfNew]
  split
  · rename_i new
    have same := Std.LawfulEqOrd.eq_of_compare new.1
    refine iff_of_false ?_ ?_
    · rintro ⟨m, found, -⟩
      exact new.2 (Std.ExtTreeMap.mem_iff_isSome_getElem?.mpr (by simp [same, found]))
    · rintro ⟨m, found, holds⟩
      cases found
      simp at holds
  · exact Iff.rfl

theorem Mirrors.erase (mirrors : table.Mirrors) : (table.erase handle).Mirrors := by
  unfold IndexedTable.erase
  cases found : table.chunks[handle]? with
  | none => exact mirrors
  | some m =>
      obtain ⟨members, full⟩ := @HeldIndex.foldl_drop handle m.locations.keys table.held
      refine ⟨fun server other => (members server other).trans ?_, full mirrors.nonempty⟩
      rw [getElem?_erase, show other ∈ table.held.of server ↔ _ from mirrors.held server other,
        Std.ExtTreeMap.mem_keys]
      split
      · rename_i same
        subst same
        rw [found]
        refine iff_of_false ?_ (by simp)
        rintro ⟨⟨m', here, holds⟩, none⟩
        cases here
        exact none ⟨Std.ExtTreeMap.contains_iff_mem.mp holds, rfl⟩
      · rename_i different
        exact and_iff_left fun both => different both.2.symm

theorem Mirrors.addLocation (mirrors : table.Mirrors) :
    (table.addLocation handle server time).2.Mirrors := by
  unfold IndexedTable.addLocation
  cases found : table.chunks[handle]? with
  | none => exact mirrors
  | some m =>
      dsimp only
      split
      · exact mirrors
      · refine ⟨fun server' other => ?_, fun server' handles there => ?_⟩
        · have before := mirrors.held server' other
          simp only [IndexedTable.heldBy, HeldIndex.of] at before ⊢
          rw [getElem?_insert, getElem?_insert]
          by_cases sameServer : server = server'
          · subst sameServer
            rw [if_pos rfl, Option.getD_some, Std.ExtTreeSet.mem_insert,
              Std.LawfulEqOrd.compare_eq_iff_eq, before]
            by_cases same : handle = other
            · subst same
              simp [ChunkMeta.addLocation]
            · simp [same]
          · rw [if_neg sameServer, before]
            by_cases same : handle = other
            · subst same
              simp [found, ChunkMeta.addLocation, sameServer]
            · simp [same]
        · rw [getElem?_insert] at there
          split at there
          · rw [← Option.some.inj there, ← Bool.not_eq_true, Std.ExtTreeSet.isEmpty_iff]
            exact Std.ExtTreeSet.ne_empty_of_mem Std.ExtTreeSet.mem_insert_self
          · exact mirrors.nonempty server' handles there

theorem Mirrors.removeLocation (mirrors : table.Mirrors) :
    (table.removeLocation handle server).2.Mirrors := by
  unfold IndexedTable.removeLocation
  cases found : table.chunks[handle]? with
  | none => exact mirrors
  | some m =>
      dsimp only
      split
      · exact mirrors
      · refine ⟨fun server' other => HeldIndex.mem_drop.trans ?_,
          fun _ _ => HeldIndex.drop_nonempty mirrors.nonempty⟩
        rw [show other ∈ table.held.of server' ↔ _ from mirrors.held server' other, getElem?_insert]
        by_cases same : handle = other
        · subst same
          rw [if_pos rfl, found]
          simp only [Option.some.injEq, exists_eq_left', ChunkMeta.removeLocation,
            Std.ExtTreeMap.contains_erase, and_true]
          by_cases sameServer : server = server'
          · subst sameServer
            simp
          · simp [sameServer, Ne.symm sameServer]
        · rw [if_neg same]
          exact and_iff_left fun both => same both.2.symm

/-- The chunks of a chunkserver, as the sections read them off the locations. -/
theorem Mirrors.mem_heldBy_iff (mirrors : table.Mirrors) :
    handle ∈ table.heldBy server ↔ handle ∈ table.chunks.heldBy server :=
  (mirrors.held server handle).trans mem_heldBy.symm

/-! ## Every sequence of operations -/

inductive Operation
  | create (handle : Handle) (version : Nat)
  | erase (handle : Handle)
  | addLocation (handle : Handle) (server : ServerId) (time : TimePoint)
  | removeLocation (handle : Handle) (server : ServerId)
  | clear

def apply (table : IndexedTable) : Operation → IndexedTable
  | .create handle version => table.create handle version
  | .erase handle => table.erase handle
  | .addLocation handle server time => (table.addLocation handle server time).2
  | .removeLocation handle server => (table.removeLocation handle server).2
  | .clear => table.clear

def run (operations : List Operation) : IndexedTable :=
  operations.foldl apply {}

theorem run_append_singleton (operations : List Operation) (operation : Operation) :
    run (operations ++ [operation]) = (run operations).apply operation := by
  simp [run, List.foldl_append]

theorem Mirrors.apply (mirrors : table.Mirrors) (operation : Operation) :
    (table.apply operation).Mirrors := by
  cases operation with
  | create handle version => exact mirrors.create
  | erase handle => exact mirrors.erase
  | addLocation handle server time => exact mirrors.addLocation
  | removeLocation handle server => exact mirrors.removeLocation
  | clear => exact mirrors_empty

theorem mirrors_run (operations : List Operation) : (run operations).Mirrors := by
  induction operations using List.reverseRecOn with
  | nil => exact mirrors_empty
  | append_singleton operations operation ih =>
      rw [run_append_singleton]
      exact ih.apply operation

def Located (table : IndexedTable) (handle : Handle) (server : ServerId) : Prop :=
  ∃ m, table.chunks[handle]? = some m ∧ m.locations.contains server = true

def addedAt (table : IndexedTable) (handle : Handle) (server : ServerId) : Option TimePoint :=
  table.chunks[handle]?.bind (·.locations[server]?)

theorem located_iff :
    table.Located handle server ↔ ∃ time, table.addedAt handle server = some time := by
  unfold Located addedAt
  cases table.chunks[handle]? with
  | none => simp
  | some m =>
      simp only [Option.some.injEq, exists_eq_left', Option.bind_some]
      rw [Std.ExtTreeMap.contains_iff_mem, Std.ExtTreeMap.mem_iff_isSome_getElem?,
        Option.isSome_iff_exists]

theorem ncard_mem (handles : Std.ExtTreeSet Handle) :
    {handle | handle ∈ handles}.ncard = handles.size := by
  have nodup : handles.toList.Nodup := by
    refine Std.ExtTreeSet.distinct_toList.imp fun different same => different ?_
    rw [same, Std.ReflOrd.compare_self]
  have listed : {handle | handle ∈ handles} = (handles.toList.toFinset : Set Handle) := by
    ext handle
    rw [Set.mem_ofPred_eq, Finset.mem_coe, List.mem_toFinset, Std.ExtTreeSet.mem_toList]
  rw [listed, Set.ncard_coe_finset, List.toFinset_card_of_nodup nodup,
    Std.ExtTreeSet.length_toList]

theorem heldCount_eq : table.heldCount server = (table.heldBy server).size := by
  unfold heldCount heldBy HeldIndex.of
  cases table.held[server]? with
  | none => rfl
  | some handles => rfl

/-- An operation after which the chunkserver is no location of the chunk. -/
def Operation.ends (handle : Handle) (server : ServerId) : Operation → Prop
  | .erase erased => erased = handle
  | .removeLocation dropped from' => dropped = handle ∧ from' = server
  | .clear => True
  | _ => False

theorem addedAt_create {created : Handle} {version : Nat} :
    (table.create created version).addedAt handle server = table.addedAt handle server := by
  unfold addedAt create ChunkTable.create
  dsimp only
  rw [Std.ExtTreeMap.getElem?_insertIfNew]
  split
  · rename_i fresh
    have absent : table.chunks[handle]? = none := by
      rw [← Std.LawfulEqOrd.eq_of_compare fresh.1]
      exact Std.ExtTreeMap.getElem?_eq_none fresh.2
    simp [absent]
  · rfl

theorem addedAt_erase {erased : Handle} :
    (table.erase erased).addedAt handle server =
      if erased = handle then none else table.addedAt handle server := by
  rw [addedAt, erase_chunks, getElem?_erase]
  split
  · rfl
  · rfl

theorem addedAt_addLocation {added : Handle} {on : ServerId} :
    (table.addLocation added on time).2.addedAt handle server =
      if (table.addLocation added on time).1 = true ∧ added = handle ∧ on = server then some time
      else table.addedAt handle server := by
  rw [addedAt, addedAt, addLocation_chunks, getElem?_modify, IndexedTable.addLocation]
  by_cases same : added = handle
  · subst same
    cases table.chunks[added]? with
    | none => simp
    | some m =>
        rw [if_pos rfl, Option.map_some, Option.bind_some, Option.bind_some,
          ChunkMeta.addLocation, Std.ExtTreeMap.getElem?_insertIfNew]
        by_cases there : m.locations.contains on = true
        · simp [there, Std.ExtTreeMap.contains_iff_mem.mp there]
        · have absent := mt Std.ExtTreeMap.contains_iff_mem.mpr there
          simp [there, absent]
  · simp [same]

theorem addedAt_removeLocation {dropped : Handle} {from' : ServerId} :
    (table.removeLocation dropped from').2.addedAt handle server =
      if dropped = handle ∧ from' = server then none else table.addedAt handle server := by
  rw [addedAt, addedAt, removeLocation_chunks, getElem?_modify]
  by_cases same : dropped = handle
  · subst same
    cases table.chunks[dropped]? with
    | none => simp
    | some m => simp [ChunkMeta.removeLocation, getElem?_erase]
  · simp [same]

/-- The last addition that changed the relation, with no operation that ended it since. -/
def FirstAdded (operations : List Operation) (handle : Handle) (server : ServerId)
    (time : TimePoint) : Prop :=
  ∃ before after, operations = before ++ .addLocation handle server time :: after ∧
    ((run before).addLocation handle server time).1 = true ∧
    ∀ operation ∈ after, ¬operation.ends handle server

theorem firstAdded_append {operations : List Operation} {operation : Operation} :
    FirstAdded (operations ++ [operation]) handle server time ↔
      (operation = .addLocation handle server time ∧
        ((run operations).addLocation handle server time).1 = true) ∨
      (FirstAdded operations handle server time ∧ ¬operation.ends handle server) := by
  constructor
  · rintro ⟨before, after, split, changed, since⟩
    induction after using List.reverseRecOn with
    | nil =>
        obtain ⟨rfl, last⟩ := List.append_inj' split rfl
        exact .inl ⟨List.head_eq_of_cons_eq last, changed⟩
    | append_singleton after last =>
        rw [← List.cons_append, ← List.append_assoc] at split
        obtain ⟨rfl, same⟩ := List.append_inj' split rfl
        obtain rfl := List.head_eq_of_cons_eq same
        exact .inr ⟨⟨before, after, rfl, changed, fun other member =>
          since other (List.mem_append_left _ member)⟩, since _ (by simp)⟩
  · rintro (⟨rfl, changed⟩ | ⟨⟨before, after, rfl, changed, since⟩, kept⟩)
    · exact ⟨operations, [], rfl, changed, by simp⟩
    · refine ⟨before, after ++ [operation], by simp, changed, fun other member => ?_⟩
      obtain earlier | rfl := List.mem_append.mp member |>.imp_right List.mem_singleton.mp
      · exact since other earlier
      · exact kept

theorem addLocation_changed : (table.addLocation handle server time).1 = true →
    table.addedAt handle server = none := by
  unfold addLocation addedAt
  cases table.chunks[handle]? with
  | none => simp
  | some m =>
      by_cases there : m.locations.contains server = true
      · simp [there]
      · intro
        exact Std.ExtTreeMap.getElem?_eq_none (mt Std.ExtTreeMap.contains_iff_mem.mpr there)

theorem addedAt_run (operations : List Operation) :
    (run operations).addedAt handle server = some time ↔
      FirstAdded operations handle server time := by
  induction operations using List.reverseRecOn with
  | nil =>
      refine iff_of_false (by simp [run, addedAt]) ?_
      rintro ⟨before, after, split, -⟩
      simp at split
  | append_singleton operations operation ih =>
      rw [run_append_singleton, firstAdded_append, ← ih]
      cases operation with
      | create created version =>
          rw [apply, addedAt_create]
          simp [Operation.ends]
      | erase erased =>
          rw [apply, addedAt_erase]
          by_cases same : erased = handle <;> simp [Operation.ends, same]
      | addLocation added on at' =>
          rw [apply, addedAt_addLocation]
          simp only [Operation.ends, not_false_eq_true, and_true, Operation.addLocation.injEq]
          split
          · rename_i changed
            obtain ⟨changed, rfl, rfl⟩ := changed
            rw [addLocation_changed changed]
            constructor
            · rintro ⟨⟩
              exact .inl ⟨⟨rfl, rfl, rfl⟩, changed⟩
            · rintro (⟨⟨-, -, rfl⟩, -⟩ | ⟨⟨⟩⟩)
              rfl
          · rename_i kept
            refine (or_iff_right ?_).symm
            rintro ⟨⟨rfl, rfl, rfl⟩, changed⟩
            exact kept ⟨changed, rfl, rfl⟩
      | removeLocation dropped from' =>
          rw [apply, addedAt_removeLocation]
          by_cases same : dropped = handle ∧ from' = server <;> simp [Operation.ends, same]
      | clear => simp [apply, clear, addedAt, Operation.ends]

theorem addLocation_changed_iff : (table.addLocation handle server time).1 = true ↔
    (table.addLocation handle server time).2.Located ≠ table.Located := by
  constructor
  · intro changed same
    have there : (table.addLocation handle server time).2.Located handle server := by
      apply located_iff.mpr
      rw [addedAt_addLocation, if_pos ⟨changed, rfl, rfl⟩]
      exact ⟨time, rfl⟩
    rw [same] at there
    obtain ⟨earlier, found⟩ := located_iff.mp there
    rw [addLocation_changed changed] at found
    cases found
  · intro different
    by_contra unchanged
    refine different (funext fun other => funext fun server' => propext ?_)
    rw [located_iff, located_iff, addedAt_addLocation, if_neg fun both => unchanged both.1]

theorem mem_create {version : Nat} : handle ∈ (table.create handle version).chunks :=
  Std.ExtTreeMap.mem_insertIfNew_self

theorem addLocation_new : (table.addLocation handle server time).1 = true ↔
    handle ∈ table.chunks ∧ ¬table.Located handle server := by
  unfold addLocation Located
  rw [Std.ExtTreeMap.mem_iff_isSome_getElem?]
  cases table.chunks[handle]? with
  | none => simp
  | some m =>
      by_cases there : m.locations.contains server = true
      · simp [there, Std.ExtTreeMap.contains_iff_mem.mp there]
      · simp [there, mt Std.ExtTreeMap.contains_iff_mem.mpr there]

theorem addLocation_located : (table.addLocation handle server time).2.Located handle server ↔
    handle ∈ table.chunks := by
  rw [located_iff, addedAt_addLocation]
  by_cases changed : (table.addLocation handle server time).1 = true
  · rw [if_pos ⟨changed, rfl, rfl⟩]
    exact iff_of_true ⟨time, rfl⟩ (addLocation_new.mp changed).1
  · rw [if_neg fun both => changed both.1, ← located_iff]
    refine ⟨fun located => ?_, fun known => ?_⟩
    · obtain ⟨m, found, -⟩ := located
      rw [Std.ExtTreeMap.mem_iff_isSome_getElem?, found]
      rfl
    · by_contra absent
      exact changed (addLocation_new.mpr ⟨known, absent⟩)

theorem removeLocation_changed : (table.removeLocation handle server).1 = true ↔
    table.Located handle server := by
  unfold removeLocation Located
  cases table.chunks[handle]? with
  | none => simp
  | some m =>
      by_cases there : m.locations.contains server = true
      · simp [there, Std.ExtTreeMap.contains_iff_mem.mp there]
      · simp [there, mt Std.ExtTreeMap.contains_iff_mem.mpr there]

theorem removeLocation_changed_iff : (table.removeLocation handle server).1 = true ↔
    (table.removeLocation handle server).2.Located ≠ table.Located := by
  rw [removeLocation_changed]
  constructor
  · intro there same
    rw [← same] at there
    obtain ⟨earlier, found⟩ := located_iff.mp there
    rw [addedAt_removeLocation, if_pos ⟨rfl, rfl⟩] at found
    cases found
  · intro different
    by_contra absent
    refine different (funext fun other => funext fun server' => propext ?_)
    rw [located_iff, located_iff, addedAt_removeLocation]
    split
    · rename_i here
      obtain ⟨rfl, rfl⟩ := here
      exact iff_of_false (by simp) (mt located_iff.mpr absent)
    · rfl

/-- After any operations the index says what the locations say, with no empty set. -/
theorem index_mirrors (operations : List Operation) (handle : Handle) (server : ServerId)
    (time : TimePoint) :
    (handle ∈ (run operations).heldBy server ↔ (run operations).Located handle server) ∧
      (run operations).heldCount server =
        {other | (run operations).Located other server}.ncard ∧
      (run operations).held[server]? ≠ some ∅ ∧
      (((run operations).addLocation handle server time).1 = true ↔
        ((run operations).addLocation handle server time).2.Located ≠
          (run operations).Located) ∧
      (∀ version, handle ∈ ((run operations).create handle version).chunks) ∧
      (((run operations).addLocation handle server time).1 = true ↔
        handle ∈ (run operations).chunks ∧ ¬(run operations).Located handle server) ∧
      (((run operations).addLocation handle server time).2.Located handle server ↔
        handle ∈ (run operations).chunks) ∧
      (((run operations).removeLocation handle server).1 = true ↔
        ((run operations).removeLocation handle server).2.Located ≠ (run operations).Located) ∧
      ((run operations).addedAt handle server = some time ↔
        FirstAdded operations handle server time) := by
  have mirrors := mirrors_run operations
  refine ⟨mirrors.held server handle, ?_, ?_, addLocation_changed_iff, fun _ => mem_create,
    addLocation_new, addLocation_located, removeLocation_changed_iff, addedAt_run operations⟩
  · rw [heldCount_eq, ← ncard_mem]
    congr 1
    ext other
    exact mirrors.held server other
  · intro empty
    have nonempty := mirrors.nonempty server ∅ empty
    simp at nonempty

end IndexedTable

end Gfs.Master
