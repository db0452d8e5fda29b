import Gfs.Master.Names
import Gfs.Master.Reports

/-!
# The registry and the locations

A chunkserver that is a location of a chunk has sent a heartbeat since the master started, and so has
the primary of a round. Whether it is alive is a matter of its last heartbeat and of the last sweep.
-/

namespace Gfs.Master
open Lib.Maps Lib.Transition

/-! ## The chunkservers of a table -/

namespace ChunkTable

def Within (known : ServerId → Prop) (chunks : ChunkTable) : Prop :=
  ∀ (handle : Handle) m, chunks[handle]? = some m →
    ∀ server, m.locations.contains server = true → known server

namespace Within

variable {known known' : ServerId → Prop} {chunks : ChunkTable} {handle : Handle}

theorem mono (within : Within known chunks) (more : ∀ server, known server → known' server) :
    Within known' chunks :=
  fun handle m found server there => more server (within handle m found server there)

theorem empty : Within known ∅ := by
  intro handle m found
  simp at found

theorem erase (within : Within known chunks) : Within known (chunks.erase handle) := by
  intro other m found
  rw [getElem?_erase] at found
  split at found
  · cases found
  · exact within other m found

theorem insert (within : Within known chunks) {m : ChunkMeta}
    (here : ∀ server, m.locations.contains server = true → known server) :
    Within known (chunks.insert handle m) := by
  intro other n found
  rw [getElem?_insert] at found
  split at found
  · cases found
    exact here
  · exact within other n found

theorem set (within : Within known chunks) {m m' : ChunkMeta} (found : chunks[handle]? = some m)
    (fewer : ∀ server, m'.locations.contains server = true → m.locations.contains server = true) :
    Within known (chunks.insert handle m') :=
  within.insert fun server there => within handle m found server (fewer server there)

theorem modify (within : Within known chunks) {f : ChunkMeta → ChunkMeta}
    (fewer : ∀ m server, (f m).locations.contains server = true →
      m.locations.contains server = true ∨ known server) :
    Within known (chunks.modify handle f) := by
  intro other n found server there
  rw [getElem?_modify] at found
  split at found
  · obtain ⟨m, before, rfl⟩ := Option.map_eq_some_iff.mp found
    rcases fewer m server there with old | new
    · exact within other m before server old
    · exact new
  · exact within other n found server there

theorem create (within : Within known chunks) {version : Nat} :
    Within known (chunks.create handle version) := by
  intro other m found server there
  rw [getElem?_create] at found
  split at found
  · cases before : chunks[other]? with
    | none =>
        rw [before] at found
        cases found
        simp at there
    | some n =>
        rw [before] at found
        cases found
        exact within other n before server there
  · exact within other m found server there

theorem foldl {ε : Type*} {step : ChunkTable → ε → ChunkTable} (within : Within known chunks)
    (entries : List ε)
    (one : ∀ chunks, ∀ e ∈ entries, Within known chunks → Within known (step chunks e)) :
    Within known (entries.foldl step chunks) := by
  induction entries generalizing chunks with
  | nil => exact within
  | cons e entries ih =>
      exact ih (one chunks e List.mem_cons_self within)
        fun chunks e member => one chunks e (List.mem_cons_of_mem _ member)

theorem addReference (within : Within known chunks) : Within known (chunks.addReference handle) :=
  within.modify fun _ _ there => .inl there

theorem dropReference (within : Within known chunks) : Within known (chunks.dropReference handle) :=
  within.modify fun _ _ there => .inl there

end Within

end ChunkTable

namespace MasterState
open ChunkTable

section
variable {known : ServerId → Prop} {s : MasterState} {path source target : Str} {index : Nat}
  {handle : Handle}

theorem within_refer (within : Within known s.chunks) : Within known (s.refer handle).chunks :=
  within.create.modify fun _ _ there => .inl there

theorem within_replaceChunk (within : Within known s.chunks) :
    Within known (s.applyReplaceChunk path index handle).chunks := by
  unfold applyReplaceChunk
  split
  · exact within
  · split
    · exact within
    · split
      · exact within
      · exact within_refer within.dropReference

theorem within_addChunk (within : Within known s.chunks) :
    Within known (s.applyAddChunk path index handle).chunks := by
  unfold applyAddChunk
  split
  · exact within
  · split
    · split
      · exact within
      · exact within_replaceChunk within
    · split
      · exact within
      · exact within_refer within

theorem within_remove (within : Within known s.chunks) : Within known (s.applyRemove path).chunks := by
  unfold applyRemove
  split
  · exact within
  · exact within.foldl _ fun _ _ _ within => within.dropReference

theorem within_rename (within : Within known s.chunks) :
    Within known (s.applyRename source target).chunks := by
  unfold applyRename
  split
  · exact within
  · exact within

theorem within_snapshot (within : Within known s.chunks) :
    Within known (s.applySnapshot source target).chunks := by
  unfold applySnapshot
  generalize s.files.subtree source true = entries
  induction entries generalizing s with
  | nil => exact within
  | cons entry entries ih =>
      refine ih ?_
      unfold copyFile
      dsimp only
      split
      · exact within
      · exact within.foldl _ fun _ _ _ within => within.addReference

theorem within_apply (within : Within known s.chunks) (record : LogRecord) :
    Within known (s.apply record).chunks := by
  cases record with
  | create path => exact within
  | rename source target => exact within_rename within
  | remove path => exact within_remove within
  | allocHandle handle => exact within
  | addChunk path index handle => exact within_addChunk within
  | replaceChunk path index handle => exact within_replaceChunk within
  | bumpVersion handle version => exact within.modify fun _ _ there => .inl there
  | snapshot source target => exact within_snapshot within
  | dropChunk handle => exact within.erase
  | bodyNotSet => exact within

theorem within_replay (within : Within known s.chunks) (records : List LogRecord) :
    Within known (s.replay records).chunks := by
  induction records generalizing s with
  | nil => exact within
  | cons record records ih => exact ih (within_apply within record)

theorem within_recomputeRefcounts (within : Within known s.chunks) :
    Within known s.recomputeRefcounts.chunks := by
  have zeroed : Within known (zeroRefcounts s.chunks) := by
    intro handle m found
    rw [zeroRefcounts, Std.ExtTreeMap.getElem?_map] at found
    obtain ⟨m, before, rfl⟩ := Option.map_eq_some_iff.mp found
    exact within handle m before
  have counted : ∀ (t : MasterState) (handles : List Handle), Within known t.chunks →
      Within known (handles.foldl countReference t).chunks := by
    intro t handles within
    induction handles generalizing t with
    | nil => exact within
    | cons handle handles ih => exact ih _ within.create.addReference
  unfold recomputeRefcounts
  generalize s.files.toList = files
  suffices every : ∀ t : MasterState, Within known t.chunks →
      Within known (files.foldl (fun s entry => entry.2.chunks.foldl countReference s) t).chunks from
    every _ zeroed
  intro t within
  induction files generalizing t with
  | nil => exact within
  | cons entry files ih => exact ih _ (counted t _ within)

end

end MasterState

/-! ## What a step does to the registry -/

namespace Live

section
variable {cfg : Config} {s s' : Live} {a : Action}

@[simp] theorem copiedTo_registry (id : Nat) (f : Find) (handle : Handle) :
    (s.copiedTo id f handle).registry = s.registry := by
  unfold copiedTo
  split <;> rfl

@[simp] theorem copiedTo_now (id : Nat) (f : Find) (handle : Handle) :
    (s.copiedTo id f handle).now = s.now := by
  unfold copiedTo
  split <;> rfl

@[simp] theorem copiedTo_state (id : Nat) (f : Find) (handle : Handle) :
    (s.copiedTo id f handle).state = s.state := by
  unfold copiedTo
  split <;> rfl

theorem granted_same (id : Nat) (ok : Bool) :
    (s.granted id ok).registry = s.registry ∧ (s.granted id ok).now = s.now ∧
      (s.granted id ok).state = s.state := by
  unfold granted
  split
  · split
    · split
      · exact ⟨rfl, rfl, rfl⟩
      · exact ⟨rfl, rfl, rfl⟩
    · exact ⟨rfl, rfl, rfl⟩
  · exact ⟨rfl, rfl, rfl⟩

theorem getElem?_buried {dead : List ServerId} {server : ServerId}
    {registry : Std.ExtTreeMap ServerId ChunkserverInfo} :
    (dead.foldl (fun registry server =>
        registry.modify server fun info => { info with alive := false }) registry)[server]? =
      (registry[server]?).map fun info : ChunkserverInfo =>
        { info with alive := info.alive && !decide (server ∈ dead) } := by
  induction dead generalizing registry with
  | nil => simp
  | cons gone dead ih =>
      rw [List.foldl_cons, ih, getElem?_modify]
      by_cases same : gone = server
      · rw [if_pos same, Option.map_map]
        simp [same, Function.comp_def]
      · rw [if_neg same]
        simp [Ne.symm same]

/-- What a step does to the registry and to the clock. -/
inductive Registers (cfg : Config) (s s' : Live) : Action → Prop
  | same {a : Action} (running : ∀ kept, a ≠ .restart kept) (calm : ∀ id, a ≠ .sweep id)
      (registry : s'.registry = s.registry) (now : s'.now = s.now) : Registers cfg s s' a
  | touched {id : Nat} {server : ServerId}
      (registry : s'.registry = s.registry.insert server ⟨s.now, true⟩) (now : s'.now = s.now) :
      Registers cfg s s' (.touch id server)
  | swept {id : Nat} (registry : ∀ server : ServerId, s'.registry[server]? =
      (s.registry[server]?).map fun info : ChunkserverInfo => { info with
        alive := info.alive && !decide (cfg.chunkserverDeadTimeout < s.now - info.lastHeartbeat) })
      (now : s'.now = s.now) : Registers cfg s s' (.sweep id)
  | lost {kept : Nat} (registry : s'.registry = ∅) (now : s'.now = s.now)
      (calls : s'.calls = ∅) (grants : s'.grants = ∅) : Registers cfg s s' (.restart kept)
  | later {passed : Duration} (registry : s'.registry = s.registry) (forward : 0 ≤ passed)
      (now : s'.now = s.now + passed) : Registers cfg s s' (.advance passed)

theorem act_registers (taken : s.act cfg a = some s') : Registers cfg s s' a := by
  cases a with
  | touch id server =>
      obtain ⟨_, _, rfl⟩ := begin_eq taken
      exact .touched rfl rfl
  | sweep id =>
      obtain ⟨_, _, rfl⟩ := begin_eq taken
      refine .swept (fun server => getElem?_buried.trans ?_) rfl
      cases found : s.registry[server]? with
      | none => rfl
      | some info =>
          have overdue : server ∈ (s.registry.toList.filter fun entry => entry.2.alive &&
              decide (cfg.chunkserverDeadTimeout < s.now - entry.2.lastHeartbeat)).map (·.1) ↔
              info.alive = true ∧ cfg.chunkserverDeadTimeout < s.now - info.lastHeartbeat := by
            rw [List.mem_map]
            constructor
            · rintro ⟨⟨_, info'⟩, member, rfl⟩
              obtain ⟨listed, late⟩ := List.mem_filter.mp member
              have found' := Std.ExtTreeMap.mem_toList_iff_getElem?_eq_some.mp listed
              cases found.symm.trans found'
              simpa using late
            · intro late
              exact ⟨(server, info), List.mem_filter.mpr
                ⟨Std.ExtTreeMap.mem_toList_iff_getElem?_eq_some.mpr found, by simpa using late⟩, rfl⟩
          simp only [Option.map_some, overdue]
          cases alive : info.alive with
          | false => rfl
          | true => simp
  | restart kept =>
      simp only [act, restart] at taken
      split at taken
      · cases taken
        exact .lost rfl rfl rfl rfl
      · cases taken
  | advance passed =>
      simp only [act, advance] at taken
      split at taken
      · rename_i forward
        cases taken
        exact .later rfl forward rfl
      · cases taken
  | endGrant handle =>
      simp only [act, endGrant] at taken
      split at taken
      · split at taken
        · split at taken
          · cases taken
            exact .same (fun _ same => by cases same) (fun _ same => by cases same)
              (granted_same _ _).1 (granted_same _ _).2.1
          · cases taken
            exact .same (fun _ same => by cases same) (fun _ same => by cases same) rfl rfl
        · cases taken
      · cases taken
  | _ =>
      -- The other sections read the registry and the clock at most.
      refine .same (fun _ same => by cases same) (fun _ same => by cases same) ?_ ?_
      all_goals
        simp only [act, create, remove, move, findLeaseHolder, addChunk, gcPass, begin, revoke,
          revoked, finish, attempt, copyOnWrite, alloc, endCopy, copied, decideLease, wake, grant,
          respond, requestRegrant, regrant, recheck, prepare, settle, clear, endAdd, hear, sweepDead,
          gcRemove, gcDrop, flush, done] at taken
        repeat' split at taken
        all_goals cases taken
        all_goals simp [setCall, endCall, setChunk, setGrant, write, abandon, allocHandle]

end

end Live

/-! ## Where locations come from -/

section
variable {cfg : Config} {t : TimePoint} {server : ServerId} {known : ServerId → Prop}
  {heard : Heard} {handle : Handle} {chunks : ChunkTable}
open ChunkTable

theorem Heard.settle_within {verdict : ChunkMeta.Verdict} {m : ChunkMeta}
    (within : Within known heard.chunks) (vouched : known server)
    (found : heard.chunks[handle]? = some m)
    (others : ∀ other, other ≠ server → verdict.chunk.locations[other]? = m.locations[other]?) :
    Within known (heard.settle handle verdict).chunks := by
  refine within.insert fun other there => ?_
  by_cases same : other = server
  · exact same ▸ vouched
  · refine within handle m found other ?_
    rw [← Std.ExtTreeMap.isSome_getElem?_eq_contains, ← others other same,
      Std.ExtTreeMap.isSome_getElem?_eq_contains]
    exact there

theorem Heard.report_within (entry : Handle × Nat) (vouched : known server)
    (within : Within known heard.chunks) : Within known (heard.report cfg t server entry).chunks := by
  unfold report
  split
  · exact within
  · rename_i m found
    exact settle_within within vouched found ChunkMeta.report_spec.2.2.2.2

theorem Heard.miss_within (vouched : known server) (within : Within known heard.chunks) :
    Within known (heard.miss cfg t server handle).chunks := by
  unfold miss
  split
  · exact within
  · split
    · exact within
    · rename_i m found
      exact settle_within within vouched found ChunkMeta.unreported_spec.2.2

theorem Heard.corrupt_within (vouched : known server) (within : Within known heard.chunks) :
    Within known (heard.corrupt cfg t server handle).chunks := by
  unfold corrupt
  split
  · exact within
  · rename_i m found
    exact settle_within within vouched found ChunkMeta.removeLocation_spec.2

theorem Heard.extend_within (within : Within known heard.chunks) :
    Within known (heard.extend cfg t server handle).chunks := by
  unfold extend
  split
  · exact within
  · rename_i m' extended
    obtain ⟨m, found, extended⟩ := Option.bind_eq_some_iff.mp extended
    obtain ⟨l, _, _, _, rfl⟩ := ChunkMeta.extendLocked_eq extended
    exact within.set found fun _ there => there

theorem Heard.foldl_within {ε : Type*} {step : Heard → ε → Heard} (entries : List ε)
    (one : ∀ heard e, Within known heard.chunks → Within known (step heard e).chunks)
    (within : Within known heard.chunks) : Within known (entries.foldl step heard).chunks := by
  induction entries generalizing heard with
  | nil => exact within
  | cons e entries ih => exact ih (one heard e within)

theorem heartBeat_within (req : HeartBeatRequest) (within : Within known chunks)
    (vouched : known server) : Within known (chunks.heartBeat cfg t server req).chunks := by
  unfold ChunkTable.heartBeat
  dsimp only
  refine Heard.foldl_within _ (fun _ _ => Heard.extend_within) ?_
  refine Heard.foldl_within _ (fun _ _ => Heard.corrupt_within vouched) ?_
  refine Heard.foldl_within _ (fun _ _ => Heard.miss_within vouched) ?_
  exact Heard.foldl_within _ (fun _ entry => Heard.report_within entry vouched) within

theorem removeLocation_fewer {m : ChunkMeta} {other : ServerId}
    (there : (m.removeLocation server).locations.contains other = true) :
    m.locations.contains other = true := by
  by_cases same : other = server
  · rw [same, ChunkMeta.removeLocation_spec.1] at there
    cases there
  · rw [← Std.ExtTreeMap.isSome_getElem?_eq_contains, ChunkMeta.removeLocation_spec.2 other same,
      Std.ExtTreeMap.isSome_getElem?_eq_contains] at there
    exact there

theorem removeLocations_fewer {m : ChunkMeta} {failed : List ServerId} {other : ServerId}
    (there : (failed.foldl ChunkMeta.removeLocation m).locations.contains other = true) :
    m.locations.contains other = true := by
  induction failed generalizing m with
  | nil => exact there
  | cons gone failed ih => exact removeLocation_fewer (ih there)

theorem locations_revokeLocked {m : ChunkMeta} :
    (m.revokeLocked cfg t).2.locations = m.locations := by
  unfold ChunkMeta.revokeLocked
  split
  · rfl
  · split
    · rfl
    · rfl

theorem locations_revokeAcked {m : ChunkMeta} : (m.revokeAcked server).2.locations = m.locations := by
  unfold ChunkMeta.revokeAcked
  split
  · rfl
  · split
    · rfl
    · rfl

theorem sweepDead_within (dead : List ServerId) (within : Within known chunks) :
    Within known (chunks.sweepDead cfg t dead).1 := by
  have one : ∀ (server : ServerId) (handles : List Handle) (swept : ChunkTable × List Handle),
      Within known swept.1 → Within known (handles.foldl (sweepChunk cfg t server) swept).1 := by
    intro server handles swept within
    induction handles generalizing swept with
    | nil => exact within
    | cons handle handles ih =>
        refine ih _ ?_
        unfold sweepChunk
        split
        · exact within
        · rename_i m found
          exact within.set found fun _ => removeLocation_fewer
  unfold sweepDead
  suffices all : ∀ swept : ChunkTable × List Handle, Within known swept.1 →
      Within known (dead.foldl (fun swept server =>
        (swept.1.heldBy server).foldl (sweepChunk cfg t server) swept) swept).1 from
    all _ within
  intro swept within
  induction dead generalizing swept with
  | nil => exact within
  | cons server dead ih => exact ih _ (one server _ swept within)

theorem addLocations_within {ok : List ServerId} (within : Within known chunks)
    (vouched : ∀ server ∈ ok, known server) :
    Within known (Live.addLocations chunks handle ok t) := by
  refine within.foldl ok fun chunks server member within => ?_
  refine within.modify fun m other there => ?_
  by_cases same : other = server
  · exact .inr (same ▸ vouched server member)
  · rw [← Std.ExtTreeMap.isSome_getElem?_eq_contains, ChunkMeta.addLocation_spec.2 other same,
      Std.ExtTreeMap.isSome_getElem?_eq_contains] at there
    exact .inl there

end

/-! ## The chunkservers that a state knows -/

def Task.servers : Task → List ServerId
  | .beat server _ => [server]
  | .find { phase := .alloc _ holders, .. } => holders
  | .find { phase := .copying _ _ holders _, .. } => holders
  | _ => []

def GrantStage.servers : GrantStage → List ServerId
  | .waiting _ attempt => attempt.primary :: attempt.secondaries
  | _ => []

namespace Live
open ChunkTable

/-- Whoever is in use has been in the registry since the master started. -/
structure Registered (s : Live) : Prop where
  located : Within (· ∈ s.registry) s.state.chunks
  calls : ∀ (id : Nat) task, s.calls[id]? = some task → ∀ server ∈ task.servers, server ∈ s.registry
  grants : ∀ (handle : Handle) client stage, s.grants[handle]? = some ⟨client, stage⟩ →
    ∀ server ∈ stage.servers, server ∈ s.registry

section
variable {cfg : Config} {s s' : Live} {a : Action} {server : ServerId}

theorem mem_of_resolves (alive : s.resolves server = true) : server ∈ s.registry := by
  unfold resolves at alive
  rw [← Std.ExtTreeMap.isSome_getElem?_iff_mem]
  cases found : s.registry[server]? with
  | none =>
      rw [found] at alive
      cases alive
  | some info => rfl

theorem Registered.within (registered : Registered s) (taken : s.act cfg a = some s')
    (running : ∀ kept, a ≠ .restart kept) : Within (· ∈ s.registry) s'.state.chunks := by
  have within := registered.located
  cases a with
  | restart kept => exact absurd rfl (running kept)
  | remove id path unixSeconds =>
      simp only [act, remove] at taken
      split at taken
      · cases taken
        exact within
      · obtain ⟨_, _, rfl⟩ := begin_eq taken
        split
        · exact within
        · split
          · exact MasterState.within_remove within
          · exact MasterState.within_rename within
  | revoke id =>
      simp only [act, revoke] at taken
      split at taken
      · split at taken
        · split at taken
          · cases taken
            exact within
          · rename_i m found
            cases taken
            exact within.set found fun _ there => by
              rwa [locations_revokeLocked] at there
        · cases taken
      · cases taken
  | revoked id ok =>
      simp only [act, revoked] at taken
      split at taken
      · rename_i m call
        split at taken
        · rename_i handle lease revoking
          split at taken
          · cases taken
          · cases taken
            cases found : s.state.chunks[handle]? with
            | none => exact within
            | some chunk =>
                dsimp only [Option.map_some]
                split
                · exact within.set found fun _ there => by rwa [locations_revokeAcked] at there
                · exact within
        · cases taken
      · cases taken
  | finish id =>
      simp only [act, finish] at taken
      split at taken
      · split at taken
        · split at taken
          · cases taken
            exact MasterState.within_rename within
          · split at taken
            · cases taken
            · cases taken
              refine MasterState.within_snapshot (within.foldl _ fun _ _ _ within => ?_)
              refine within.modify fun m server there => .inl ?_
              split at there
              · exact there
              · exact there
        · cases taken
      · cases taken
  | alloc id =>
      have fresh : Within (· ∈ s.registry) s.allocHandle.state.chunks :=
        within.create.modify fun _ _ there => .inl there
      simp only [act, alloc] at taken
      split at taken
      · split at taken
        · cases taken
          exact fresh
        · cases taken
      · cases taken
        exact fresh
      · cases taken
  | endCopy id ok =>
      simp only [act, endCopy] at taken
      split at taken
      · rename_i f call
        split at taken
        · rename_i old fresh holders seq phase
          split at taken
          · rename_i copies
            have vouched : ∀ server ∈ ok, server ∈ s.registry := by
              intro server member
              refine registered.calls id _ call server ?_
              obtain ⟨path, index, phase'⟩ := f
              cases phase
              exact copies.2.2 server member
            split at taken
            · cases taken
              exact MasterState.within_replaceChunk (addLocations_within within vouched)
            · cases taken
              exact within.erase
          · cases taken
        · cases taken
      · cases taken
  | decideLease id =>
      simp only [act, decideLease] at taken
      split at taken
      · split at taken
        · split at taken
          · cases taken
            exact within
          · rename_i m found
            split at taken
            · cases taken
              exact within
            · split at taken
              · cases taken
                exact within
              · split at taken
                · cases taken
                  exact within
                · cases taken
                  exact within.set found fun _ there => there
        · cases taken
      · cases taken
  | prepare handle =>
      simp only [act, prepare] at taken
      split at taken
      · split at taken
        · cases taken
          exact within
        · rename_i attempt m' prepared
          obtain ⟨m, found, prepared⟩ := Option.bind_eq_some_iff.mp prepared
          obtain ⟨rfl, _⟩ := ChunkMeta.prepareLocked_eq prepared
          cases taken
          exact within.set found fun _ there => there
      · cases taken
  | settle handle failed =>
      simp only [act, settle] at taken
      split at taken
      · split at taken
        · split at taken
          · cases taken
            exact within
          · rename_i m found
            split at taken
            · cases taken
              exact within.set found fun _ there => there
            · cases taken
              exact within.set found fun _ => removeLocations_fewer
        · cases taken
      · cases taken
  | clear handle =>
      simp only [act, clear] at taken
      split at taken
      · cases taken
        split
        · rename_i m found
          exact within.set found fun _ there => there
        · exact within
      · cases taken
  | endAdd id ok =>
      simp only [act, endAdd] at taken
      split at taken
      · split at taken
        · rename_i created
          split at taken
          · cases taken
            exact MasterState.within_addChunk (addLocations_within within created.2.2)
          · cases taken
            exact within.erase
        · cases taken
      · cases taken
  | hear id req =>
      simp only [act, hear] at taken
      split at taken
      · rename_i server time call
        cases taken
        exact heartBeat_within req within (registered.calls id _ call server List.mem_cons_self)
      · cases taken
  | sweepDead id =>
      simp only [act, sweepDead] at taken
      split at taken
      · cases taken
        exact sweepDead_within _ within
      · cases taken
  | gcRemove id =>
      simp only [act, gcRemove] at taken
      split at taken
      · split at taken
        · split at taken
          · cases taken
            exact MasterState.within_remove within
          · cases taken
            exact within
        · cases taken
      · cases taken
  | gcDrop id =>
      simp only [act, gcDrop] at taken
      split at taken
      · cases taken
        have dropped : ∀ (handles : List Handle) (t : MasterState), Within (· ∈ s.registry) t.chunks →
            Within (· ∈ s.registry) (handles.foldl MasterState.applyDropChunk t).chunks := by
          intro handles t within
          induction handles generalizing t with
          | nil => exact within
          | cons handle handles ih => exact ih _ within.erase
        exact dropped _ _ within
      · cases taken
  | endGrant handle =>
      simp only [act, endGrant] at taken
      split at taken
      · split at taken
        · split at taken
          · cases taken
            rw [(granted_same _ _).2.2]
            exact within
          · cases taken
            exact within
        · cases taken
      · cases taken
  | _ =>
      simp only [act, create, move, findLeaseHolder, addChunk, gcPass, begin,
          attempt, copyOnWrite, copied, wake, grant,
          respond, requestRegrant, regrant, recheck, touch, sweep, advance,
          flush, done] at taken
      repeat' split at taken
      all_goals cases taken
      all_goals first | exact within | simpa using within

theorem servers_of_turn (turn : Turn cfg s s') {id : Nat} {task' : Task}
    (found : s'.calls[id]? = some task') (member : server ∈ task'.servers) :
    (∃ task, s.calls[id]? = some task ∧ server ∈ task.servers) ∨ s.resolves server = true ∨
      s'.resolves server = true := by
  rcases turn.call found with old | ⟨_, begins, _⟩ | ⟨task, there, advances, _⟩
  · exact .inl ⟨task', old, member⟩
  · cases begins with
    | beat alive =>
        obtain rfl := List.mem_singleton.mp member
        exact .inr (.inr alive)
    | _ => cases member
  · cases advances with
    | finding path index next =>
        rename_i f f'
        obtain ⟨path', index', phase'⟩ := f'
        dsimp only at next
        cases next with
        | copy phase position free alive => exact .inr (.inl (alive server member))
        | allocated phase =>
            obtain ⟨path, index, phase''⟩ := f
            cases phase
            exact .inl ⟨_, there, member⟩
        | _ => cases member
    | _ => cases member

theorem servers_of_grants (grants : Grants cfg s s') {handle : Handle} {client : Option Nat}
    {stage : GrantStage} (found : s'.grants[handle]? = some ⟨client, stage⟩)
    (member : server ∈ stage.servers) :
    (∃ client' stage', s.grants[handle]? = some ⟨client', stage'⟩ ∧ server ∈ stage'.servers) ∨
      s.resolves server = true := by
  have put : ∀ {other : Handle} {g : GrantCall}, s'.grants = s.grants.insert other g →
      s.grants[handle]? = some ⟨client, stage⟩ ∨ g = ⟨client, stage⟩ := by
    intro other g grants
    rw [grants, getElem?_insert] at found
    split at found
    · exact .inr (Option.some.inj found)
    · exact .inl found
  cases grants with
  | same grants => exact .inl ⟨client, stage, grants ▸ found, member⟩
  | opened id f other call phase fresh calls grants =>
      rcases put grants with old | new
      · exact .inl ⟨client, stage, old, member⟩
      · cases new
        cases member
  | regranting other grants =>
      rcases put grants with old | new
      · exact .inl ⟨client, stage, old, member⟩
      · cases new
        cases member
  | staged other client' stage' stage'' there under grants alive =>
      rcases put grants with old | new
      · exact .inl ⟨client, stage, old, member⟩
      · cases new
        cases stage with
        | waiting round attempt => exact .inr (alive round attempt rfl server member)
        | _ => cases member
  | closed other grants =>
      rw [grants, getElem?_erase] at found
      split at found
      · cases found
      · exact .inl ⟨client, stage, found, member⟩
  | lost grants =>
      rw [grants] at found
      simp at found

theorem Registered.preserved (registered : Registered s) (taken : s.act cfg a = some s') :
    Registered s' := by
  have turn : Turn cfg s s' := (act_section taken).2
  have carry (running : ∀ kept, a ≠ .restart kept)
      (grow : ∀ server, server ∈ s.registry → server ∈ s'.registry) : Registered s' := by
    refine ⟨(registered.within taken running).mono grow, fun id task found server member => ?_,
      fun handle client stage found server member => ?_⟩
    · rcases servers_of_turn turn found member with ⟨task, there, member⟩ | alive | alive
      · exact grow server (registered.calls id task there server member)
      · exact grow server (mem_of_resolves alive)
      · exact mem_of_resolves alive
    · rcases servers_of_grants turn.grants found member with ⟨client, stage, there, member⟩ | alive
      · exact grow server (registered.grants handle client stage there server member)
      · exact grow server (mem_of_resolves alive)
  cases act_registers taken with
  | same running calm registry => exact carry running fun _ there => registry ▸ there
  | touched registry =>
      refine carry nofun fun server there => ?_
      rw [registry, Std.ExtTreeMap.mem_insert]
      exact .inr there
  | swept registry =>
      refine carry nofun fun server there => ?_
      rw [← Std.ExtTreeMap.isSome_getElem?_iff_mem] at there ⊢
      rw [registry, Option.isSome_map]
      exact there
  | lost registry now calls grants =>
      simp only [act, restart] at taken
      split at taken
      · cases taken
        refine ⟨MasterState.within_recomputeRefcounts (MasterState.within_replay .empty _), ?_, ?_⟩
        · simp
        · simp
      · cases taken
  | later registry => exact carry nofun fun _ there => registry ▸ there

theorem registered_initial (initial : Initial s) : Registered s := by
  rw [initial]
  exact ⟨.empty, by simp, by simp⟩

end

/-! ## Who is alive -/

/-- The chunkserver whose `Resolve` the step dereferences, as the primary of the answer. -/
def dereferenced (cfg : Config) (s : Live) : Action → Option ServerId
  | .decideLease id =>
      match s.calls[id]? with
      | some (.find ⟨_, _, .decide handle⟩) =>
          (s.state.chunks[handle]?).bind fun m =>
            if m.isValid cfg s.now then m.lease.map (·.primary) else none
      | _ => none
  | .settle handle [] =>
      match s.grants[handle]? with
      | some ⟨_, .waiting _ attempt⟩ =>
          if s.state.chunks.contains handle then some attempt.primary else none
      | _ => none
  | _ => none

end Live

structure Watched where
  live : Live := {}
  swept : Option TimePoint := none

namespace Watched
open Live

def sweptAfter (w : Watched) : Action → Option TimePoint
  | .sweep _ => some w.live.now
  | .restart _ => none
  | _ => w.swept

def step (cfg : Config) (w : Watched) (a : Action) : Option Watched :=
  (w.live.step cfg a).map fun live => ⟨live, w.sweptAfter a⟩

/-- The last sweep came in time for this heartbeat. -/
def InTime (cfg : Config) (w : Watched) (info : ChunkserverInfo) : Prop :=
  ∀ t, w.swept = some t → t - info.lastHeartbeat ≤ cfg.chunkserverDeadTimeout

structure Timely (cfg : Config) (w : Watched) : Prop where
  registered : w.live.Registered
  past : ∀ t, w.swept = some t → t ≤ w.live.now
  alive : ∀ (server : ServerId) info, w.live.registry[server]? = some info →
    (info.alive = true ↔ w.InTime cfg info)

section
variable {cfg : Config} {w w' : Watched} {a : Action}

theorem timely_initial : Timely cfg {} :=
  ⟨registered_initial rfl, nofun, by simp⟩

theorem Timely.preserved (forward : 0 ≤ cfg.chunkserverDeadTimeout) (timely : Timely cfg w)
    (taken : step cfg w a = some w') : Timely cfg w' := by
  obtain ⟨live, acted, rfl⟩ := Option.map_eq_some_iff.mp taken
  have silent : Registered { w.live with answer := none } :=
    ⟨timely.registered.located, timely.registered.calls, timely.registered.grants⟩
  have registered : live.Registered := silent.preserved acted
  cases act_registers acted with
  | same running calm registry now =>
      have swept : w.sweptAfter a = w.swept := by
        cases a with
        | sweep id => exact absurd rfl (calm id)
        | restart kept => exact absurd rfl (running kept)
        | _ => rfl
      rw [swept]
      refine ⟨registered, fun t latest => ?_, fun server info found => ?_⟩
      · rw [now]
        exact timely.past t latest
      · rw [registry] at found
        exact timely.alive server info found
  | touched registry now =>
      rename_i id server
      refine ⟨registered, fun t latest => ?_, fun other info found => ?_⟩
      · rw [now]
        exact timely.past t latest
      · rw [registry, getElem?_insert] at found
        split at found
        · cases found
          refine iff_of_true rfl fun t latest => ?_
          have : t ≤ w.live.now := timely.past t latest
          exact le_trans (Int.sub_nonpos_of_le this) forward
        · exact timely.alive other info found
  | swept registry now =>
      refine ⟨registered, fun t latest => ?_, fun server info found => ?_⟩
      · cases latest
        rw [now]
      · rw [registry] at found
        obtain ⟨before, there, rfl⟩ := Option.map_eq_some_iff.mp found
        have older := timely.alive server before there
        simp only [Bool.and_eq_true, older, Bool.not_eq_true', decide_eq_false_iff_not, not_lt]
        constructor
        · rintro ⟨_, late⟩ t latest
          cases latest
          exact late
        · intro inTime
          have late : w.live.now - before.lastHeartbeat ≤ cfg.chunkserverDeadTimeout :=
            inTime _ rfl
          refine ⟨fun t latest => ?_, late⟩
          exact le_trans (Int.sub_le_sub_right (timely.past t latest) _) late
  | lost registry now calls grants =>
      refine ⟨registered, nofun, fun server info found => ?_⟩
      rw [registry] at found
      simp at found
  | later registry passed now =>
      refine ⟨registered, fun t latest => ?_, fun server info found => ?_⟩
      · have : t ≤ w.live.now := timely.past t latest
        rw [now]
        exact le_trans this (le_add_of_nonneg_right passed)
      · rw [registry] at found
        exact timely.alive server info found

theorem timely_of_reachable (forward : 0 ≤ cfg.chunkserverDeadTimeout)
    (reachable : Reachable (step cfg) (· = {}) (fun _ _ => True) w) : Timely cfg w := by
  refine reachable.invariant ?_ ?_
  · rintro _ rfl
    exact timely_initial
  · intro _ _ _ timely _ taken
    exact timely.preserved forward taken

/-- What a step dereferences has been in the registry since the master started. -/
theorem Timely.dereferenced_mem (timely : Timely cfg w) {primary : ServerId}
    (primary' : w.live.dereferenced cfg a = some primary) : primary ∈ w.live.registry := by
  cases a with
  | decideLease id =>
      simp only [dereferenced] at primary'
      split at primary'
      · obtain ⟨m, found, lease⟩ := Option.bind_eq_some_iff.mp primary'
        split at lease
        · rename_i valid
          obtain ⟨l, held, _, _, located⟩ := ChunkMeta.isValid_lease valid
          rw [held] at lease
          cases lease
          exact timely.registered.located _ m found _ located
        · cases lease
      · cases primary'
  | settle handle failed =>
      cases failed with
      | nil =>
          simp only [dereferenced] at primary'
          split at primary'
          · rename_i client round attempt waiting
            split at primary'
            · cases primary'
              exact timely.registered.grants handle client _ waiting _ List.mem_cons_self
            · cases primary'
          · cases primary'
      | cons => cases primary'
  | _ => cases primary'

end

/-- The `Resolve` of the primary has a value exactly when the last sweep came at most
`chunkserver_dead_timeout` after its last heartbeat. -/
theorem resolves_dereferenced (cfg : Config) (w : Watched) (a : Action) (primary : ServerId)
    (forward : 0 ≤ cfg.chunkserverDeadTimeout)
    (reachable : Reachable (step cfg) (· = {}) (fun _ _ => True) w)
    (primary' : w.live.dereferenced cfg a = some primary) :
    ∃ info, w.live.registry[primary]? = some info ∧
      (w.live.resolves primary = true ↔
        ∀ t, w.swept = some t → t - info.lastHeartbeat ≤ cfg.chunkserverDeadTimeout) := by
  have timely : Timely cfg w := timely_of_reachable forward reachable
  have member := timely.dereferenced_mem primary'
  rw [← Std.ExtTreeMap.isSome_getElem?_iff_mem] at member
  obtain ⟨info, found⟩ := Option.isSome_iff_exists.mp member
  refine ⟨info, found, ?_⟩
  rw [resolves, found]
  exact timely.alive primary info found

/-- A file with a chunk, whose lease has been granted to the only chunkserver. -/
def leased : List Action :=
  [.create 0 fileA, .flush 1, .done 0, .touch 1 serverP, .hear 1 {}, .addChunk 2 fileA 0, .alloc 2,
    .flush 2, .endAdd 2 [serverP], .flush 3, .done 2, .findLeaseHolder 3 fileA 0, .attempt 3,
    .decideLease 3, .grant 3, .prepare 1, .settle 1 [], .flush 4, .endGrant 1, .respond 3]

theorem resolves_leased :
    ∃ w, run (step {}) {} (leased ++ [.sweep 4, .findLeaseHolder 5 fileA 0, .attempt 5]) = some w ∧
      ∃ info, w.live.registry[serverP]? = some info ∧ (w.live.resolves serverP = true ↔
        ∀ t, w.swept = some t → t - info.lastHeartbeat ≤ millis 15000) := by
  obtain ⟨w, ran⟩ := Option.isSome_iff_exists.mp (by decide +kernel : (run (step {}) {}
    (leased ++ [.sweep 4, .findLeaseHolder 5 fileA 0, .attempt 5])).isSome = true)
  have next : (run (step {}) {} (leased ++ [.sweep 4, .findLeaseHolder 5 fileA 0, .attempt 5])).all
      (fun w => w.live.dereferenced {} (.decideLease 5) = some serverP) = true := by
    decide +kernel
  rw [ran, Option.all_some, decide_eq_true_iff] at next
  exact ⟨w, ran, resolves_dereferenced {} w (.decideLease 5) serverP (by decide)
    (reachable_run_true rfl ran) next⟩

/-- A sweep has declared the primary dead but not yet removed its locations. -/
theorem resolves_fails :
    ∃ w, Reachable (step {}) (· = {}) (fun _ _ => True) w ∧ ∃ a primary,
      w.live.dereferenced {} a = some primary ∧ w.live.resolves primary = false := by
  obtain ⟨w, ran⟩ := Option.isSome_iff_exists.mp (by decide +kernel : (run (step {}) {} (leased ++
    [.advance (millis 20000), .sweep 4, .findLeaseHolder 5 fileA 0, .attempt 5])).isSome = true)
  have both : (run (step {}) {} (leased ++
      [.advance (millis 20000), .sweep 4, .findLeaseHolder 5 fileA 0, .attempt 5])).all (fun w =>
        w.live.dereferenced {} (.decideLease 5) = some serverP && !w.live.resolves serverP) =
      true := by
    decide +kernel
  simp only [ran, Option.all_some, Bool.and_eq_true, decide_eq_true_eq, Bool.not_eq_true'] at both
  exact ⟨w, reachable_run_true rfl ran, .decideLease 5, serverP, both⟩

end Watched

end Gfs.Master
