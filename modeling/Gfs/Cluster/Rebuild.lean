import Gfs.Chunkserver.ChunkStore
import Gfs.Chunkserver.LeaseTable
import Gfs.Lib.Newest
import Gfs.Master.Reports

/-!
# How heartbeats bring the locations back

The log and the checkpoints have no locations, so a master that has recovered knows none. Every
chunkserver then reports what it has (`Chunkserver::SendHeartbeat`), the master takes the highest
version that it hears of as its own, and tells a chunkserver to delete what is older. A chunkserver
that reported too early is told so by its next heartbeat: once every one has reported, and then every
one again, the table and the chunkservers agree. Two heartbeats of each are not enough where a
chunkserver has sent both before another one reports a newer version.
-/

namespace Gfs.Cluster.Rebuild
open Chunkserver (Slot)
open Chunkserver.Disk (Store)
open Master (ChunkMeta ChunkTable HeartBeatRequest LogRecord MasterState Checkpoint)
open Lib.Maps

/-! ## A master that has recovered -/

/-- Nothing is known of where the chunk is, and no grant is under way. -/
structure Unplaced (m : ChunkMeta) : Prop where
  locations : m.locations = ∅
  lease : m.lease = none
  granting : m.granting = false

def AllUnplaced (chunks : ChunkTable) : Prop :=
  ∀ (handle : Handle) m, chunks[handle]? = some m → Unplaced m

section
variable {chunks : ChunkTable} {s : MasterState} {handle : Handle}

theorem AllUnplaced.modify {f : ChunkMeta → ChunkMeta} (all : AllUnplaced chunks)
    (keeps : ∀ m, Unplaced m → Unplaced (f m)) : AllUnplaced (chunks.modify handle f) := by
  intro other m found
  rw [getElem?_modify] at found
  split at found
  · obtain ⟨m', found', rfl⟩ := Option.map_eq_some_iff.mp found
    exact keeps m' (all other m' found')
  · exact all other m found

theorem AllUnplaced.create {version : Nat} (all : AllUnplaced chunks) :
    AllUnplaced (chunks.create handle version) := by
  intro other m found
  rw [ChunkTable.create, Std.ExtTreeMap.getElem?_insertIfNew] at found
  split at found
  · cases found
    exact ⟨rfl, rfl, rfl⟩
  · exact all other m found

theorem AllUnplaced.foldl {α : Type} {f : ChunkTable → α → ChunkTable} {xs : List α}
    (step : ∀ chunks x, AllUnplaced chunks → AllUnplaced (f chunks x)) (all : AllUnplaced chunks) :
    AllUnplaced (xs.foldl f chunks) := by
  induction xs generalizing chunks with
  | nil => exact all
  | cons x xs ih => exact ih (step chunks x all)

theorem AllUnplaced.addReference (all : AllUnplaced chunks) :
    AllUnplaced (chunks.addReference handle) :=
  all.modify fun _ unplaced => ⟨unplaced.locations, unplaced.lease, unplaced.granting⟩

theorem AllUnplaced.dropReference (all : AllUnplaced chunks) :
    AllUnplaced (chunks.dropReference handle) :=
  all.modify fun _ unplaced => ⟨unplaced.locations, unplaced.lease, unplaced.granting⟩

theorem AllUnplaced.refer (all : AllUnplaced s.chunks) : AllUnplaced (s.refer handle).chunks :=
  all.create.modify fun _ unplaced => ⟨unplaced.locations, unplaced.lease, unplaced.granting⟩

theorem AllUnplaced.replaceChunk {path : Str} {index : Nat} (all : AllUnplaced s.chunks) :
    AllUnplaced (s.applyReplaceChunk path index handle).chunks := by
  unfold MasterState.applyReplaceChunk
  split
  · exact all
  · split
    · exact all
    · split
      · exact all
      · apply AllUnplaced.refer
        exact all.dropReference

theorem AllUnplaced.apply (all : AllUnplaced s.chunks) (record : LogRecord) :
    AllUnplaced (s.apply record).chunks := by
  cases record with
  | create path => exact all
  | rename source target =>
      show AllUnplaced (s.applyRename source target).chunks
      unfold MasterState.applyRename
      split <;> exact all
  | remove path =>
      show AllUnplaced (s.applyRemove path).chunks
      unfold MasterState.applyRemove
      split
      · exact all
      · apply all.foldl
        intro chunks handle all
        exact all.dropReference
  | allocHandle handle => exact all
  | addChunk path index handle =>
      show AllUnplaced (s.applyAddChunk path index handle).chunks
      unfold MasterState.applyAddChunk
      split
      · exact all
      · split
        · split
          · exact all
          · exact all.replaceChunk
        · split
          · exact all
          · apply AllUnplaced.refer
            exact all
  | replaceChunk path index handle => exact all.replaceChunk
  | bumpVersion handle version =>
      exact all.modify fun _ unplaced => ⟨unplaced.locations, unplaced.lease, unplaced.granting⟩
  | snapshot source target =>
      show AllUnplaced (s.applySnapshot source target).chunks
      unfold MasterState.applySnapshot
      generalize s.files.subtree source true = entries
      induction entries generalizing s with
      | nil => exact all
      | cons entry entries ih =>
          apply ih
          unfold MasterState.copyFile
          dsimp only
          split
          · exact all
          · apply all.foldl
            intro chunks handle all
            exact all.addReference
  | dropChunk handle =>
      intro other m found
      show Unplaced m
      have found : (s.chunks.erase handle)[other]? = some m := found
      rw [getElem?_erase] at found
      split at found
      · cases found
      · exact all other m found
  | bodyNotSet => exact all

theorem AllUnplaced.replay (all : AllUnplaced s.chunks) (records : List LogRecord) :
    AllUnplaced (s.replay records).chunks := by
  induction records generalizing s with
  | nil => exact all
  | cons record records ih => exact ih (all.apply record)

theorem allUnplaced_load (checkpoint : Checkpoint) :
    AllUnplaced (MasterState.load checkpoint).chunks := by
  unfold MasterState.load
  dsimp only
  refine List.foldlRecOn (motive := fun s : MasterState => AllUnplaced s.chunks) _ _ ?_ ?_
  · intro handle m found
    simp at found
  · intro s all entry _
    exact all.create

theorem AllUnplaced.recount (all : AllUnplaced s.chunks) :
    AllUnplaced s.recomputeRefcounts.chunks := by
  unfold MasterState.recomputeRefcounts
  have zeroed : AllUnplaced (MasterState.zeroRefcounts s.chunks) := by
    intro handle m found
    rw [MasterState.zeroRefcounts, Std.ExtTreeMap.getElem?_map] at found
    obtain ⟨m', found', rfl⟩ := Option.map_eq_some_iff.mp found
    have unplaced := all handle m' found'
    exact ⟨unplaced.locations, unplaced.lease, unplaced.granting⟩
  have counted : ∀ (handles : List Handle) (s : MasterState), AllUnplaced s.chunks →
      AllUnplaced (handles.foldl MasterState.countReference s).chunks := by
    intro handles
    induction handles with
    | nil => exact fun _ all => all
    | cons handle handles ih =>
        intro s all
        apply ih
        exact all.create.addReference
  generalize s.files.toList = files
  generalize start : ({ s with chunks := MasterState.zeroRefcounts s.chunks } : MasterState) = t
  have zeroed : AllUnplaced t.chunks := start ▸ zeroed
  clear start
  induction files generalizing t with
  | nil => exact zeroed
  | cons file files ih => exact ih _ (counted _ _ zeroed)

theorem allUnplaced_recovered (checkpoint : Checkpoint) (records : List LogRecord) :
    AllUnplaced ((MasterState.load checkpoint).replay records).recomputeRefcounts.chunks :=
  ((allUnplaced_load checkpoint).replay records).recount

end

/-! ## A heartbeat -/

structure Node where
  store : Store := {}
  slots : Std.ExtTreeMap Handle Slot := ∅

namespace Node

def handlesToExtend (now : TimePoint) (n : Node) : List Handle :=
  (n.slots.toList.filter fun slot =>
    Chunkserver.LeaseTable.toExtend now (some slot.2)).map (·.1)

/-- The request that `SendHeartbeat` puts together. -/
def request (now : TimePoint) (n : Node) : HeartBeatRequest where
  chunks := n.store.list.map fun listing => (listing.1, listing.2.1.toNat)
  corrupt := n.store.corrupt
  leaseExtensionRequests := n.handlesToExtend now

/-- The loop body over `resp.delete_handles()`. -/
def delete (n : Node) (handle : Handle) : Node where
  store := (n.store.remove handle).2
  slots := n.slots.alter handle Chunkserver.LeaseTable.revoke

/-- The loop body over `resp.extended()`. -/
def extend (cfg : Config) (now : TimePoint) (n : Node) (handle : Handle) : Node :=
  { n with
    slots := n.slots.alter handle
      (Chunkserver.LeaseTable.extend cfg.leaseClockSkewMargin now cfg.leaseDuration) }

def clearCorrupt (handles : List Handle) (n : Node) : Node :=
  { n with store := { n.store with corrupt := n.store.corrupt.filter (· ∉ handles) } }

/-- `SendHeartbeat` from the answer on. -/
def answered (cfg : Config) (now : TimePoint) (req : HeartBeatRequest) (heard : Master.Heard)
    (n : Node) : Node :=
  let n := heard.deleteHandles.foldl delete (n.clearCorrupt req.corrupt)
  heard.extended.foldl (extend cfg now) n

end Node

/-- A heartbeat with the times at which the chunkserver asks, the master answers and the chunkserver
has the answer. -/
structure Beat where
  server : ServerId
  asked : TimePoint
  received : TimePoint
  answered : TimePoint

structure Sync where
  chunks : ChunkTable
  nodes : ServerId → Node

def Sync.heard (cfg : Config) (s : Sync) (b : Beat) : Master.Heard :=
  s.chunks.heartBeat cfg b.received b.server ((s.nodes b.server).request b.asked)

def Sync.beat (cfg : Config) (s : Sync) (b : Beat) : Sync where
  chunks := (s.heard cfg b).chunks
  nodes := Function.update s.nodes b.server <|
    (s.nodes b.server).answered cfg b.answered ((s.nodes b.server).request b.asked) (s.heard cfg b)

namespace Node
variable {cfg : Config} {now : TimePoint} {n : Node} {handle : Handle}

def version (n : Node) (handle : Handle) : Option Nat :=
  n.store.entries[handle]?.map (·.version.toNat)

theorem nodup_request : ((n.request now).chunks.map (·.1)).Nodup := by
  have keys : (n.request now).chunks.map (·.1) = n.store.list.map (·.1) := by
    unfold request
    rw [List.map_map]
    rfl
  rw [keys]
  exact nodup_toList _

theorem version_request : (n.request now).version handle = n.version handle := by
  apply Option.ext
  intro version
  rw [HeartBeatRequest.version_eq_some nodup_request]
  unfold request Store.list Node.version
  rw [List.mem_map]
  constructor
  · rintro ⟨⟨handle', listing⟩, member, same⟩
    cases same
    rw [Std.ExtTreeMap.mem_toList_iff_getElem?_eq_some, Std.ExtTreeMap.getElem?_map] at member
    obtain ⟨entry, found, rfl⟩ := Option.map_eq_some_iff.mp member
    rw [found]
    rfl
  · intro known
    obtain ⟨entry, found, rfl⟩ := Option.map_eq_some_iff.mp known
    refine ⟨(handle, entry.version, entry.length), ?_, rfl⟩
    rw [Std.ExtTreeMap.mem_toList_iff_getElem?_eq_some, Std.ExtTreeMap.getElem?_map, found]
    rfl

theorem entries_delete {other : Handle} : (n.delete other).store.entries[handle]? =
    if other = handle then none else n.store.entries[handle]? := by
  unfold delete Store.remove
  by_cases known : n.store.entries.contains other = true
  · rw [if_pos known]
    exact getElem?_erase
  · rw [if_neg known]
    by_cases same : other = handle
    · subst same
      rw [if_pos rfl]
      exact Std.ExtTreeMap.getElem?_eq_none fun member =>
        known (Std.ExtTreeMap.contains_iff_mem.mpr member)
    · rw [if_neg same]

theorem corrupt_delete {other : Handle} (clear : n.store.corrupt = []) :
    (n.delete other).store.corrupt = [] := by
  unfold delete Store.remove
  split
  · show n.store.corrupt.filter _ = []
    rw [clear]
    rfl
  · exact clear

theorem deleteAll (handles : List Handle) (clear : n.store.corrupt = []) :
    (handles.foldl delete n).store.corrupt = [] ∧ ∀ handle : Handle,
      (handles.foldl delete n).store.entries[handle]? =
        if handle ∈ handles then none else n.store.entries[handle]? := by
  induction handles generalizing n with
  | nil => exact ⟨clear, by simp⟩
  | cons other handles ih =>
      obtain ⟨cleared, entries⟩ := ih (corrupt_delete clear)
      refine ⟨cleared, fun handle => ?_⟩
      rw [List.foldl_cons, entries, entries_delete]
      by_cases later : handle ∈ handles
      · simp [later]
      · by_cases same : other = handle
        · simp [same]
        · simp [later, same, Ne.symm same]

theorem extendAll (handles : List Handle) :
    (handles.foldl (extend cfg now) n).store = n.store := by
  induction handles generalizing n with
  | nil => rfl
  | cons handle handles ih => exact ih

theorem answered_spec (t : TimePoint) (heard : Master.Heard) :
    (n.answered cfg now (n.request t) heard).store.corrupt = [] ∧ ∀ handle,
      (n.answered cfg now (n.request t) heard).version handle =
        if handle ∈ heard.deleteHandles then none else n.version handle := by
  have clear : (n.clearCorrupt (n.request t).corrupt).store.corrupt = [] := by
    show n.store.corrupt.filter (· ∉ n.store.corrupt) = []
    simp
  obtain ⟨cleared, entries⟩ := deleteAll heard.deleteHandles clear
  unfold answered Node.version
  rw [extendAll]
  refine ⟨cleared, fun handle => ?_⟩
  rw [entries]
  split
  · rfl
  · rfl

end Node

/-! ## One chunk -/

namespace Sync
open Lib.Newest (View)

/-- No chunk is being granted or has a lease, and a chunkserver is listed only for what it has. -/
def Quiet (s : Sync) : Prop :=
  ∀ (handle : Handle) m, s.chunks[handle]? = some m → m.granting = false ∧ m.lease = none ∧
    ∀ server, m.locations.contains server = true → ((s.nodes server).version handle).isSome

def view (s : Sync) (handle : Handle) (m : ChunkMeta) : View ServerId Nat where
  version := m.version
  stored server := (s.nodes server).version handle
  corrupt server := decide (handle ∈ (s.nodes server).store.corrupt)
  listed server := m.locations.contains server

variable {cfg : Config} {s : Sync} {b : Beat} {handle : Handle} {m : ChunkMeta}

theorem beat_node : (s.beat cfg b).nodes b.server = (s.nodes b.server).answered cfg b.answered
    ((s.nodes b.server).request b.asked) (s.heard cfg b) := by
  unfold beat
  dsimp only
  rw [Function.update_self]

theorem beat_other {server : ServerId} (different : server ≠ b.server) :
    (s.beat cfg b).nodes server = s.nodes server := by
  unfold beat
  dsimp only
  rw [Function.update_of_ne different]

variable (cfg b)

theorem beat_absent (absent : s.chunks[handle]? = none) :
    (s.beat cfg b).chunks[handle]? = none ∧ ∀ server,
      ((s.beat cfg b).nodes server).version handle =
        if server = b.server then none else (s.nodes server).version handle := by
  have distinct : (((s.nodes b.server).request b.asked).chunks.map (·.1)).Nodup :=
    Node.nodup_request
  obtain ⟨still, deletes⟩ := @Master.heartBeat_absent cfg b.received b.server _ _ _ distinct absent
  refine ⟨still, fun server => ?_⟩
  by_cases here : server = b.server
  · subst here
    rw [if_pos rfl, beat_node, (Node.answered_spec b.asked (s.heard cfg b)).2]
    split
    · rfl
    · rename_i kept
      have asked : ((s.nodes b.server).request b.asked).version handle = _ := Node.version_request
      rw [← Option.not_isSome_iff_eq_none, ← asked]
      exact fun reported => kept (deletes.mpr (.inl reported))
  · rw [if_neg here, beat_other here]

theorem beat_present (quiet : s.Quiet) (found : s.chunks[handle]? = some m) :
    ∃ m', (s.beat cfg b).chunks[handle]? = some m' ∧ m'.granting = false ∧ m'.lease = none ∧
      (s.beat cfg b).view handle m' = (s.view handle m).report b.server := by
  obtain ⟨granting, lease, listed⟩ := quiet handle m found
  have distinct : (((s.nodes b.server).request b.asked).chunks.map (·.1)).Nodup :=
    Node.nodup_request
  obtain ⟨m', there, holds, deletes, raised, others⟩ :=
    @Master.heartBeat_present cfg b.received b.server _ _ _ _ distinct found
  obtain ⟨m'', there'', follows, -, -, leased⟩ := ChunkMeta.heartBeat_cases cfg b.received
    b.server m (((s.nodes b.server).request b.asked).version handle)
    (decide (handle ∈ ((s.nodes b.server).request b.asked).corrupt))
    (decide (handle ∈ ((s.nodes b.server).request b.asked).leaseExtensionRequests))
  have same : m'' = m' := by
    have chunk := (@Master.heartBeat_chunk cfg b.received b.server s.chunks _ handle distinct).1
    rw [found, there''] at chunk
    exact Option.some.inj (chunk.symm.trans there)
  subst same
  have unleased : m''.lease = none := by
    rcases leased with ⟨-, same⟩ | ⟨-, -, l, held, -⟩
    · exact same.trans lease
    · rw [lease] at held
      cases held
  refine ⟨m'', there, follows.granting.trans granting, unleased, ?_⟩
  rw [Node.version_request] at holds deletes raised
  have corrupt : ((s.nodes b.server).request b.asked).corrupt = (s.nodes b.server).store.corrupt :=
    rfl
  rw [corrupt] at holds deletes
  obtain ⟨cleared, left⟩ : ((s.beat cfg b).nodes b.server).store.corrupt = [] ∧
      ∀ handle, ((s.beat cfg b).nodes b.server).version handle =
        if handle ∈ (s.heard cfg b).deleteHandles then none
        else (s.nodes b.server).version handle := by
    rw [beat_node]
    exact Node.answered_spec b.asked (s.heard cfg b)
  -- what is listed, what is left and what is deleted follow from one condition
  obtain ⟨raises, keeps, lists⟩ :
      m''.version = max m.version (((s.nodes b.server).version handle).getD 0) ∧
      (((s.beat cfg b).nodes b.server).version handle =
        if ((s.nodes b.server).version handle).any (m.version ≤ ·) &&
            !decide (handle ∈ (s.nodes b.server).store.corrupt)
        then (s.nodes b.server).version handle else none) ∧
      (m''.locations.contains b.server = true ↔
        (((s.nodes b.server).version handle).any (m.version ≤ ·) &&
          !decide (handle ∈ (s.nodes b.server).store.corrupt)) = true) := by
    rw [left]
    have deletes : handle ∈ (s.heard cfg b).deleteHandles ↔ _ := deletes
    simp only [deletes]
    rw [holds, raised]
    cases stored : (s.nodes b.server).version handle with
    | none =>
        have unlisted : m.locations.contains b.server = false := by
          by_contra there
          have some := listed b.server (by simpa using there)
          rw [stored] at some
          cases some
        rw [Option.elim_none, Option.elim_none, ChunkMeta.recent_absent unlisted]
        simp
    | some version =>
        have stale : m.stale version = true ↔ version < m.version := Master.stale_free granting
        rw [Option.elim_some, Option.elim_some, granting]
        by_cases sound : handle ∈ (s.nodes b.server).store.corrupt
        · simp [sound]
        · by_cases fresh : m.version ≤ version
          · have kept : m.stale version = false := by
              rw [← Bool.not_eq_true, stale]
              exact Nat.not_lt.mpr fresh
            simp [sound, fresh, kept]
          · simp [sound, fresh, stale.mpr (Nat.lt_of_not_le fresh)]
  unfold view View.report
  congr 1
  · funext server
    by_cases here : server = b.server
    · subst here
      rw [Function.update_self, keeps]
    · rw [Function.update_of_ne here, beat_other here]
  · funext server
    by_cases here : server = b.server
    · subst here
      rw [Function.update_self, cleared]
      rfl
    · rw [Function.update_of_ne here, beat_other here]
  · funext server
    by_cases here : server = b.server
    · subst here
      rw [Function.update_self, Bool.eq_iff_iff, lists]
    · rw [Function.update_of_ne here]
      rw [← Std.ExtTreeMap.isSome_getElem?_eq_contains, others server here,
        Std.ExtTreeMap.isSome_getElem?_eq_contains]

variable {cfg b}

theorem Quiet.beat (quiet : s.Quiet) : (s.beat cfg b).Quiet := by
  intro handle m' found'
  cases found : s.chunks[handle]? with
  | none =>
      rw [(beat_absent cfg b found).1] at found'
      cases found'
  | some m =>
      obtain ⟨m'', there, granting, lease, same⟩ := beat_present cfg b quiet found
      obtain rfl := Option.some.inj (there.symm.trans found')
      refine ⟨granting, lease, fun server listed => ?_⟩
      have kept := @View.report_listed _ _ _ _ (s.view handle m) _
        (quiet handle m found).2.2 b.server server
      rw [← same] at kept
      exact kept listed

/-- The beats change a chunk as the reports of the chunkservers change the view of it. -/
theorem beats_present (beats : List Beat) (quiet : s.Quiet) (found : s.chunks[handle]? = some m) :
    ∃ m', (beats.foldl (beat cfg) s).chunks[handle]? = some m' ∧
      (beats.foldl (beat cfg) s).view handle m' =
        (beats.map (·.server)).foldl View.report (s.view handle m) := by
  induction beats generalizing s m with
  | nil => exact ⟨m, found, rfl⟩
  | cons b beats ih =>
      obtain ⟨m', there, -, -, same⟩ := beat_present cfg b quiet found
      obtain ⟨m'', there', whole⟩ := ih quiet.beat there
      rw [same] at whole
      exact ⟨m'', there', whole⟩

theorem beats_absent (beats : List Beat) (absent : s.chunks[handle]? = none) :
    (beats.foldl (beat cfg) s).chunks[handle]? = none ∧ ∀ server,
      (server ∈ beats.map (·.server) ∨ (s.nodes server).version handle = none →
        ((beats.foldl (beat cfg) s).nodes server).version handle = none) := by
  induction beats generalizing s with
  | nil => exact ⟨absent, fun server gone => gone.resolve_left nofun⟩
  | cons b beats ih =>
      obtain ⟨still, nodes⟩ := beat_absent cfg b absent
      obtain ⟨still', gone⟩ := ih still
      refine ⟨still', fun server either => gone server ?_⟩
      rw [nodes]
      by_cases here : server = b.server
      · exact .inr (if_pos here)
      · rw [if_neg here]
        simpa [here] using either

end Sync

/-! ## After two heartbeats of every chunkserver -/

/-- The highest version of a chunk that the log or a chunkserver has. -/
def newest (nodes : ServerId → Node) (servers : List ServerId) (handle : Handle) (version : Nat) :
    Nat :=
  servers.foldl (fun version server => max version (((nodes server).version handle).getD 0)) version

/-- Only chunks of the table are left, and of these the sound replicas of the newest version, which
are the ones that the table lists. -/
structure Restored (chunks : ChunkTable) (nodes : ServerId → Node) (servers : List ServerId)
    (s : Sync) : Prop where
  absent : ∀ handle : Handle, chunks[handle]? = none → s.chunks[handle]? = none ∧
    ∀ server ∈ servers, (s.nodes server).version handle = none
  present : ∀ (handle : Handle) m, chunks[handle]? = some m → ∃ m', s.chunks[handle]? = some m' ∧
    m'.version = newest nodes servers handle m.version ∧
    (∀ server, m'.locations.contains server = true ↔
      server ∈ servers ∧ (s.nodes server).version handle = some m'.version) ∧
    ∀ server ∈ servers, ∀ version, (s.nodes server).version handle = some version ↔
      (nodes server).version handle = some version ∧ version = m'.version ∧
        handle ∉ (nodes server).store.corrupt

/-- `Recover` knows no location; what a round of heartbeats of every chunkserver and then a second
one make of what it has read, in any order within a round. -/
theorem locations_restored (cfg : Config) (checkpoint : Checkpoint) (records : List LogRecord)
    (nodes : ServerId → Node) {first second : List Beat}
    (same : ∀ server, server ∈ first.map (·.server) ↔ server ∈ second.map (·.server)) :
    let recovered := ((MasterState.load checkpoint).replay records).recomputeRefcounts.chunks
    AllUnplaced recovered ∧ Restored recovered nodes (first.map (·.server))
      ((first ++ second).foldl (Sync.beat cfg) ⟨recovered, nodes⟩) := by
  intro recovered
  have unplaced : AllUnplaced recovered := allUnplaced_recovered checkpoint records
  have unlisted : ∀ (handle : Handle) m, recovered[handle]? = some m →
      ∀ server, m.locations.contains server = false := by
    intro handle m found server
    rw [(unplaced handle m found).locations]
    rfl
  refine ⟨unplaced, fun handle absent => ?_, fun handle m found => ?_⟩
  · obtain ⟨still, gone⟩ := @Sync.beats_absent cfg ⟨recovered, nodes⟩ handle
      (first ++ second) absent
    refine ⟨still, fun server member => gone server (.inl ?_)⟩
    rw [List.map_append]
    exact List.mem_append_left _ member
  · have quiet : Sync.Quiet ⟨recovered, nodes⟩ := by
      intro other m' there
      refine ⟨(unplaced other m' there).granting, (unplaced other m' there).lease, ?_⟩
      intro server listed
      rw [unlisted other m' there] at listed
      cases listed
    obtain ⟨m', there, whole⟩ := @Sync.beats_present cfg _ _ _ (first ++ second) quiet found
    rw [List.map_append] at whole
    obtain ⟨version, agreed⟩ := Lib.Newest.View.agreed same (Sync.view ⟨recovered, nodes⟩ handle m)
    rw [← whole] at version agreed
    have version : m'.version = newest nodes (first.map (·.server)) handle m.version := version
    refine ⟨m', there, version, fun server => ?_, fun server member stored => ?_⟩
    · rw [version]
      by_cases member : server ∈ first.map (·.server)
      · obtain ⟨listed, left⟩ := (agreed server).1 member
        have listed : m'.locations.contains server = _ := listed
        rw [listed, Option.isSome_iff_exists]
        refine ⟨fun ⟨stored, has⟩ => ⟨member, ?_⟩, fun ⟨_, has⟩ => ⟨_, has⟩⟩
        have newest := ((left stored).mp has).2.2
        rw [newest] at has
        exact has
      · have listed : m'.locations.contains server = _ := ((agreed server).2 member).2
        rw [listed]
        have silent : m.locations.contains server = false := unlisted handle m found server
        have still : (Sync.view ⟨recovered, nodes⟩ handle m).listed server = false := silent
        rw [still]
        exact iff_of_false Bool.false_ne_true fun both => member both.1
    · rw [version]
      have left := ((agreed server).1 member).2 stored
      refine left.trans ⟨fun ⟨had, sound, newest⟩ => ⟨had, newest, ?_⟩,
        fun ⟨had, newest, sound⟩ => ⟨had, ?_, newest⟩⟩
      · exact of_decide_eq_false sound
      · exact decide_eq_false sound

/-! ## Three chunkservers

The log knows chunk 1 at version 4. One chunkserver has missed the last round, and has a chunk that
no file refers to; another one has taken part in a round that the log does not have. -/

def storing (versions : List (Handle × UInt64)) : Node where
  store := { entries := .ofList (versions.map fun (handle, version) =>
    (handle, { version : Chunkserver.Disk.Entry })) }

def three (server : ServerId) : Node :=
  if server = "a".toList then storing [(1, 3), (9, 1)]
  else if server = "b".toList then storing [(1, 4)]
  else if server = "c".toList then storing [(1, 5)]
  else {}

def logged : Checkpoint where
  nextChunkHandle := 2
  files := [("/f".toList, [1])]
  chunks := [(1, 3)]

def beats : List Beat :=
  ["a".toList, "b".toList, "c".toList].map fun server => ⟨server, 0, 1, 2⟩

theorem locations_restored_three :
    let recovered := ((MasterState.load logged).replay [.bumpVersion 1 4]).recomputeRefcounts.chunks
    let s := (beats ++ beats.reverse).foldl (Sync.beat {}) ⟨recovered, three⟩
    (AllUnplaced recovered ∧ Restored recovered three (beats.map (·.server)) s) ∧
      (s.chunks[1]?.map fun m => (m.version, m.locations.keys)) = some (5, ["c".toList]) ∧
      (beats.map fun b => (s.nodes b.server).store.entries.keys) = [[], [], [1]] := by
  refine ⟨locations_restored {} logged [.bumpVersion 1 4] three ?_, ?_, ?_⟩
  · intro server
    rw [List.map_reverse, List.mem_reverse]
  · decide +kernel
  · decide +kernel

end Gfs.Cluster.Rebuild
