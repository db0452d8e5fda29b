import Gfs.Lib.Greedy
import Gfs.Master.ChunkIndex

/-!
# `Master::ChooseServers` over `master/chunkserver_registry.cc`

The two loops over the ranking pick the first chunkserver of every rack and then the first of the
others.
-/

namespace Gfs.Master
open Lib.Maps Lib.Greedy

/-- `ChunkserverInfo` with all its fields. -/
structure ChunkserverRegistry.Info where
  id : ServerId
  address : Str
  rack : Str
  lastHeartbeat : TimePoint
  alive : Bool := true
deriving DecidableEq

/-- `servers_`, in which every entry has its own name. -/
structure ChunkserverRegistry where
  servers : Std.ExtTreeMap ServerId ChunkserverRegistry.Info := ∅
  named : ∀ (id : ServerId) info, servers[id]? = some info → info.id = id := by simp

namespace ChunkserverRegistry

def touch (registry : ChunkserverRegistry) (id : ServerId) (address rack : Str)
    (time : TimePoint) : ChunkserverRegistry where
  servers := registry.servers.insert id ⟨id, address, rack, time, true⟩
  named other info found := by
    rw [getElem?_insert] at found
    split at found
    · rename_i same
      rw [← Option.some.inj found, ← same]
    · exact registry.named other info found

def alive (registry : ChunkserverRegistry) : List ChunkserverRegistry.Info :=
  (registry.servers.toList.map (·.2)).filter (·.alive)

theorem nodup_alive (registry : ChunkserverRegistry) : (registry.alive.map (·.id)).Nodup := by
  refine List.Nodup.sublist (List.filter_sublist.map _) ?_
  rw [List.map_map]
  have same : registry.servers.toList.map ((·.id) ∘ (·.2)) = registry.servers.toList.map (·.1) := by
    apply List.map_congr_left
    rintro ⟨id, info⟩ member
    exact registry.named id info (Std.ExtTreeMap.mem_toList_iff_getElem?_eq_some.mp member)
  rw [same]
  exact nodup_toList registry.servers

end ChunkserverRegistry

abbrev Ranking := List (Nat × ChunkserverRegistry.Info)

/-- `std::stable_sort` by the number of chunks that the chunkserver holds. -/
def ranked (table : IndexedTable) (servers : List ChunkserverRegistry.Info) : Ranking :=
  (servers.map fun s => (table.heldCount s.id, s)).mergeSort fun a b => a.1 ≤ b.1

def openRacks (count : Nat) : Ranking → List ServerId → List Str → List ServerId
  | [], chosen, _ => chosen
  | (_, s) :: rest, chosen, racks =>
      if count ≤ chosen.length then chosen
      else if s.rack ∈ racks then openRacks count rest chosen racks
      else openRacks count rest (chosen ++ [s.id]) (s.rack :: racks)

def fillUp (count : Nat) : Ranking → List ServerId → List ServerId
  | [], chosen => chosen
  | (_, s) :: rest, chosen =>
      if count ≤ chosen.length then chosen
      else if s.id ∈ chosen then fillUp count rest chosen
      else fillUp count rest (chosen ++ [s.id])

def chooseServers (registry : ChunkserverRegistry) (table : IndexedTable) (count : Nat) :
    List ServerId :=
  let ranking := ranked table registry.alive
  fillUp count ranking (openRacks count ranking [] [])

section
open ChunkserverRegistry
variable {count : Nat} {ranking : Ranking} {chosen : List ServerId} {racks : List Str}

theorem openRacks_eq : openRacks count ranking chosen racks =
    chosen ++ ((firsts (·.rack) racks (ranking.map (·.2))).take (count - chosen.length)).map
      (·.id) := by
  induction ranking generalizing chosen racks with
  | nil => simp [openRacks, firsts]
  | cons entry rest ih =>
      rw [openRacks, List.map_cons, firsts]
      split
      · rename_i full
        simp [Nat.sub_eq_zero_of_le full]
      · rename_i open'
        split
        · exact ih
        · rw [ih, List.length_append, List.length_singleton, ← Nat.sub_sub]
          obtain ⟨left, more⟩ := Nat.exists_eq_succ_of_ne_zero
            (Nat.sub_ne_zero_of_lt (Nat.lt_of_not_le open'))
          simp [more]

/-- Only the names that were chosen before the loop can come up in it again. -/
theorem fillUp_eq (nodup : (ranking.map (·.2.id)).Nodup) : fillUp count ranking chosen =
    chosen ++ (((ranking.map (·.2)).filter (·.id ∉ chosen)).take (count - chosen.length)).map
      (·.id) := by
  induction ranking generalizing chosen with
  | nil => simp [fillUp]
  | cons entry rest ih =>
      obtain ⟨once, nodup⟩ := List.nodup_cons.mp nodup
      rw [fillUp, List.map_cons]
      split
      · rename_i full
        simp [Nat.sub_eq_zero_of_le full]
      · rename_i open'
        split
        · rename_i old
          rw [ih nodup, List.filter_cons_of_neg (by simpa using old)]
        · rename_i new
          have same : (rest.map (·.2)).filter (·.id ∉ chosen ++ [entry.2.id]) =
              (rest.map (·.2)).filter (·.id ∉ chosen) := by
            apply List.filter_congr
            intro s member
            obtain ⟨other, there, rfl⟩ := List.mem_map.mp member
            have apart : other.2.id ≠ entry.2.id :=
              fun here => once (List.mem_map.mpr ⟨other, there, here⟩)
            simp [apart]
          rw [ih nodup, same, List.filter_cons_of_pos (by simpa using new), List.length_append,
            List.length_singleton, ← Nat.sub_sub]
          obtain ⟨left, more⟩ := Nat.exists_eq_succ_of_ne_zero
            (Nat.sub_ne_zero_of_lt (Nat.lt_of_not_le open'))
          simp [more]

end

section
open ChunkserverRegistry
variable {table : IndexedTable} {servers : List Info}

theorem ranked_perm : ((ranked table servers).map (·.2)).Perm servers := by
  have sorted := (List.mergeSort_perm (servers.map fun s => (table.heldCount s.id, s))
    fun a b => a.1 ≤ b.1).map (·.2)
  have back : servers.map ((·.2) ∘ fun s => (table.heldCount s.id, s)) = servers :=
    (List.map_congr_left fun _ _ => rfl).trans (List.map_id servers)
  rw [List.map_map, back] at sorted
  exact sorted

theorem ranked_ordered : ((ranked table servers).map (·.2)).Pairwise fun a b =>
    table.heldCount a.id ≤ table.heldCount b.id := by
  have load : ∀ entry ∈ ranked table servers, entry.1 = table.heldCount entry.2.id := by
    intro entry member
    obtain ⟨s, -, rfl⟩ := List.mem_map.mp (List.mem_mergeSort.mp member)
    rfl
  have sorted := @List.pairwise_mergeSort _ (fun a b : Nat × Info => decide (a.1 ≤ b.1))
    (fun a b c first second => by simp only [decide_eq_true_eq] at *; omega)
    (fun a b => by simp only [Bool.or_eq_true, decide_eq_true_eq]; omega)
    (servers.map fun s => (table.heldCount s.id, s))
  rw [List.pairwise_map]
  refine List.Pairwise.imp_of_mem ?_ sorted
  intro a b first second below
  rw [← load a first, ← load b second]
  exact of_decide_eq_true below

end

theorem chooseServers_eq (registry : ChunkserverRegistry) (table : IndexedTable) (count : Nat) :
    chooseServers registry table count =
      (spread (·.rack) count ((ranked table registry.alive).map (·.2))).map (·.id) := by
  have nodup : (((ranked table registry.alive).map (·.2)).map (·.id)).Nodup :=
    (ranked_perm.map _).nodup_iff.mpr registry.nodup_alive
  have distinct := List.inj_on_of_nodup_map nodup
  rw [List.map_map] at nodup
  unfold chooseServers
  dsimp only
  rw [fillUp_eq nodup, openRacks_eq, List.nil_append, List.length_nil, Nat.sub_zero]
  generalize (ranked table registry.alive).map (·.2) = l at distinct
  have others : l.filter (·.id ∉ ((firsts (·.rack) [] l).take count).map (·.id)) =
      l.filter (· ∉ (firsts (·.rack) [] l).take count) := by
    apply List.filter_congr
    intro s member
    apply decide_eq_decide.mpr
    apply not_congr
    rw [List.mem_map]
    constructor
    · rintro ⟨other, opening, same⟩
      rwa [← distinct (opening_sublist.subset opening) member same]
    · intro opening
      exact ⟨s, opening, rfl⟩
  rw [others, List.length_map, spread, List.map_append]

/-- The picks are as many as there can be, on as many racks as there can be; the first pick of a
rack is a least loaded one of it, and no other pick has more load than what is not picked. -/
theorem chooseServers_spreads (registry : ChunkserverRegistry) (table : IndexedTable)
    (count : Nat) :
    ∃ picked : List ChunkserverRegistry.Info,
      chooseServers registry table count = picked.map (·.id) ∧
      (∀ s ∈ picked, s ∈ registry.alive) ∧ (picked.map (·.id)).Nodup ∧
      picked.length = min count registry.alive.length ∧
      (picked.map (·.rack)).toFinset.card =
        min count (registry.alive.map (·.rack)).toFinset.card ∧
      ∀ before s after, picked = before ++ s :: after →
        (s.rack ∉ before.map (·.rack) → ∀ other ∈ registry.alive, other.rack = s.rack →
          table.heldCount s.id ≤ table.heldCount other.id) ∧
        ∀ other ∈ registry.alive, other ∉ picked →
          table.heldCount other.id < table.heldCount s.id → s.rack ∉ before.map (·.rack) := by
  have perm := @ranked_perm table registry.alive
  have ordered := @ranked_ordered table registry.alive
  rw [chooseServers_eq]
  generalize (ranked table registry.alive).map (·.2) = l at perm ordered
  have names := (perm.map (·.id)).nodup_iff.mpr registry.nodup_alive
  have nodup := List.Nodup.of_map _ names
  refine ⟨_, rfl, ?_, ?_, ?_, ?_, ?_⟩
  · intro s member
    exact perm.subset (spread_subset s member)
  · apply List.Nodup.map_on _ (spread_nodup nodup)
    intro s member other there same
    exact List.inj_on_of_nodup_map names (spread_subset s member) (spread_subset other there) same
  · rw [length_spread nodup, perm.length_eq]
  · rw [card_spread, List.toFinset_eq_of_perm _ _ (perm.map _)]
  · intro before s after split
    obtain ⟨first, later⟩ := spread_least
      (r := fun a b => table.heldCount a.id ≤ table.heldCount b.id) (fun _ => Nat.le_refl _)
      ordered split
    refine ⟨fun new other there same => first new other (perm.mem_iff.mpr there) same, ?_⟩
    intro other there absent less old
    have heavy := later old other (perm.mem_iff.mpr there) absent
    omega

end Gfs.Master
