import Gfs.Client.Serving

/-!
# The copies of the chunks of one file

Every chunkserver of the group of a chunk has the same copy of it, at the version of the master, and
a lease names the rest of the group. The calls keep this, and say what they make of the bytes.
-/

namespace Gfs.Client
open Chunkserver (BufferKey MutationOp)
open Master (ChunkMeta)

namespace World

/-- The bytes of a chunk are the same all over its group. -/
structure Copied (w : World) (handle : Handle) (m : ChunkMeta) (data : Bytes) : Prop where
  known : w.chunks handle = some m
  someone : m.locations.keys ≠ []
  copies : ∀ server ∈ m.locations.keys, ∃ entry, (w.servers server).entries handle = some entry ∧
    entry.version = m.version ∧ entry.data = data
  nowhere : ∀ server, server ∉ m.locations.keys → (w.servers server).entries handle = none
  leased : ∀ server, ∀ slot ∈ (w.servers server).slots handle, slot.held = true →
    server ∈ m.locations.keys ∧ slot.secondaries = m.locations.keys.filter (· ≠ server)

structure Whole (w : World) (file : List Bytes) : Prop where
  length : file.length = w.file.length
  nodup : w.file.Nodup
  below : ∀ handle ∈ w.file, handle < w.nextHandle
  absent : ∀ handle, w.nextHandle ≤ handle → w.chunks handle = none ∧
    ∀ server, (w.servers server).entries handle = none ∧ (w.servers server).slots handle = none
  chunk : ∀ (i : Nat) handle data, w.file[i]? = some handle → file[i]? = some data →
    ∃ m, w.Copied handle m data

/-- Chunks stay where they are in the file and on their chunkservers, and versions grow. -/
structure Onward (w w' : World) : Prop where
  file : w.file <+: w'.file
  chunks : ∀ handle m, w.chunks handle = some m → ∃ m', w'.chunks handle = some m' ∧
    m.version ≤ m'.version ∧ m'.locations = m.locations

def Waits (w : World) (key : BufferKey) (data : Bytes) (servers : List ServerId) : Prop :=
  ∀ server ∈ servers, ∃ node, (w.servers server).buffer.entryOf key = some ⟨node, key, data⟩

structure Steady (w w' : World) : Prop where
  file : w'.file = w.file
  next : w'.nextHandle = w.nextHandle
  chunks : ∀ handle, (w.chunks handle = none ∧ w'.chunks handle = none) ∨
    ∃ m m', w.chunks handle = some m ∧ w'.chunks handle = some m' ∧ m'.version = m.version ∧
      m'.locations = m.locations
  entries : ∀ server, (w'.servers server).entries = (w.servers server).entries
  leases : ∀ server handle, SameLease ((w.servers server).slots handle) ((w'.servers server).slots handle)
  free : ∀ server handle, (w.servers server).slots handle = none → (w'.servers server).slots handle = none

structure Beside (w w' : World) (handle : Handle) : Prop where
  file : w'.file = w.file
  next : w'.nextHandle = w.nextHandle
  chunks : ∀ other, other ≠ handle → w'.chunks other = w.chunks other
  entries : ∀ server other, other ≠ handle →
    (w'.servers server).entries other = (w.servers server).entries other
  slots : ∀ server other, other ≠ handle →
    (w'.servers server).slots other = (w.servers server).slots other

section
variable {e : Setting} {w w' w'' : World} {handle : Handle} {m m' : ChunkMeta} {data data' : Bytes}
  {file : List Bytes} {key : BufferKey} {servers : List ServerId}

/-! ## One chunk on one chunkserver -/

section
variable {server server' : ServerId} {handle' : Handle} {r : Chunkserver.Replica}

@[simp] theorem keep_file : (w.keep server handle r).file = w.file := rfl

@[simp] theorem keep_chunks : (w.keep server handle r).chunks = w.chunks := rfl

@[simp] theorem keep_nextHandle : (w.keep server handle r).nextHandle = w.nextHandle := rfl

theorem keep_entries : ((w.keep server handle r).servers server').entries handle' =
    if server' = server ∧ handle' = handle then r.entry else (w.servers server').entries handle' := by
  unfold keep
  by_cases here : server' = server
  · subst here
    simp [Function.update_apply]
  · simp [here]

theorem keep_slots : ((w.keep server handle r).servers server').slots handle' =
    if server' = server ∧ handle' = handle then r.slot else (w.servers server').slots handle' := by
  unfold keep
  by_cases here : server' = server
  · subst here
    simp [Function.update_apply]
  · simp [here]

theorem keep_buffer : ((w.keep server handle r).servers server').buffer =
    if server' = server then r.buffer else (w.servers server').buffer := by
  unfold keep
  by_cases here : server' = server
  · subst here
    simp
  · simp [here]

theorem keep_servers (other : server' ≠ server) :
    (w.keep server handle r).servers server' = w.servers server' :=
  Function.update_of_ne other _ _

theorem keep_beside : Beside w (w.keep server handle r) handle :=
  ⟨rfl, rfl, fun _ _ => rfl, fun _ other different => by simp [keep_entries, different],
    fun _ other different => by simp [keep_slots, different]⟩

end

theorem Onward.refl (w : World) : Onward w w :=
  ⟨List.prefix_rfl, fun _ m found => ⟨m, found, le_rfl, rfl⟩⟩

theorem Onward.trans (first : Onward w w') (second : Onward w' w'') : Onward w w'' := by
  refine ⟨first.file.trans second.file, fun handle m found => ?_⟩
  obtain ⟨m', found', le, same⟩ := first.chunks handle m found
  obtain ⟨m'', found'', le', same'⟩ := second.chunks handle m' found'
  exact ⟨m'', found'', le.trans le', same'.trans same⟩

theorem Beside.refl (w : World) : Beside w w handle :=
  ⟨rfl, rfl, fun _ _ => rfl, fun _ _ _ => rfl, fun _ _ _ => rfl⟩

theorem Beside.trans (first : Beside w w' handle) (second : Beside w' w'' handle) :
    Beside w w'' handle :=
  ⟨second.file.trans first.file, second.next.trans first.next,
    fun other different => (second.chunks other different).trans (first.chunks other different),
    fun server other different =>
      (second.entries server other different).trans (first.entries server other different),
    fun server other different =>
      (second.slots server other different).trans (first.slots server other different)⟩

theorem Beside.onward (beside : Beside w w' handle) (found : w.chunks handle = some m)
    (found' : w'.chunks handle = some m') (newer : m.version ≤ m'.version)
    (same : m'.locations = m.locations) : Onward w w' := by
  refine ⟨beside.file ▸ List.prefix_rfl, fun other m₀ there => ?_⟩
  by_cases here : other = handle
  · subst here
    cases found.symm.trans there
    exact ⟨m', found', newer, same⟩
  · exact ⟨m₀, (beside.chunks other here).trans there, le_rfl, rfl⟩

theorem Copied.beside {other : Handle} (copied : w.Copied other m data)
    (beside : Beside w w' handle) (different : other ≠ handle) : w'.Copied other m data := by
  refine ⟨(beside.chunks other different).trans copied.known, copied.someone, ?_, ?_, ?_⟩
  · intro server member
    rw [beside.entries server other different]
    exact copied.copies server member
  · intro server outside
    rw [beside.entries server other different]
    exact copied.nowhere server outside
  · intro server slot there held
    rw [beside.slots server other different] at there
    exact copied.leased server slot there held

theorem Whole.update {i : Nat} (whole : Whole w file) (beside : Beside w w' handle)
    (here : w.file[i]? = some handle) (copied : w'.Copied handle m' data') :
    Whole w' (file.set i data') := by
  have member : handle ∈ w.file := List.mem_of_getElem? here
  refine ⟨?_, beside.file ▸ whole.nodup, beside.file ▸ beside.next ▸ whole.below, ?_, ?_⟩
  · rw [List.length_set, beside.file]
    exact whole.length
  · rw [beside.next]
    intro other above
    have different : other ≠ handle := fun same =>
      absurd (whole.below handle member) (Nat.not_lt.mpr (same ▸ above))
    obtain ⟨none, free⟩ := whole.absent other above
    exact ⟨(beside.chunks other different).trans none, fun server =>
      ⟨(beside.entries server other different).trans (free server).1,
        (beside.slots server other different).trans (free server).2⟩⟩
  · rw [beside.file]
    intro j other data there found
    rw [List.getElem?_set] at found
    by_cases same : i = j
    · subst same
      cases here.symm.trans there
      have inside : i < file.length := whole.length ▸ (List.getElem?_eq_some_iff.mp here).1
      rw [if_pos rfl, if_pos inside] at found
      cases found
      exact ⟨m', copied⟩
    · rw [if_neg same] at found
      obtain ⟨m, copied⟩ := whole.chunk j other data there found
      refine ⟨m, copied.beside beside fun eq => same ?_⟩
      subst eq
      exact (List.getElem?_inj (List.getElem?_eq_some_iff.mp here).1 whole.nodup).mp
        (here.trans there.symm)

theorem Whole.found {i : Nat} (whole : Whole w file) (inside : i < file.length) :
    ∃ handle m, w.file[i]? = some handle ∧ w.Copied handle m file[i] := by
  have inside' : i < w.file.length := whole.length ▸ inside
  obtain ⟨m, copied⟩ := whole.chunk i w.file[i] file[i] (List.getElem?_eq_getElem inside')
    (List.getElem?_eq_getElem inside)
  exact ⟨_, m, List.getElem?_eq_getElem inside', copied⟩

/-! ## Times and leases -/

theorem Steady.refl (w : World) : Steady w w :=
  ⟨rfl, rfl, fun handle => by cases w.chunks handle <;> simp, fun _ => rfl, fun _ _ => .refl _,
    fun _ _ none => none⟩

theorem SameLease.trans {slot slot' slot'' : Option Chunkserver.Slot} (first : SameLease slot slot')
    (second : SameLease slot' slot'') : SameLease slot slot'' := by
  intro s there held
  obtain ⟨s', there', held', same'⟩ := second s there held
  obtain ⟨s'', there'', held'', same''⟩ := first s' there' held'
  exact ⟨s'', there'', held'', same''.trans same'⟩

theorem Steady.trans (first : Steady w w') (second : Steady w' w'') : Steady w w'' := by
  refine ⟨second.file.trans first.file, second.next.trans first.next, fun handle => ?_,
    fun server => (second.entries server).trans (first.entries server),
    fun server handle => (first.leases server handle).trans (second.leases server handle),
    fun server handle none => second.free server handle (first.free server handle none)⟩
  obtain ⟨none, none'⟩ | ⟨m, m', found, found', version, locations⟩ := first.chunks handle
  · obtain ⟨-, none''⟩ | ⟨m, m', found, -⟩ := second.chunks handle
    · exact .inl ⟨none, none''⟩
    · rw [none'] at found
      cases found
  · obtain ⟨none'', -⟩ | ⟨m'', m''', found'', found''', version', locations'⟩ := second.chunks handle
    · rw [found'] at none''
      cases none''
    · cases found'.symm.trans found''
      exact .inr ⟨m, m''', found, found''', version'.trans version, locations'.trans locations⟩

theorem Steady.onward (steady : Steady w w') : Onward w w' := by
  refine ⟨steady.file ▸ List.prefix_rfl, fun handle m found => ?_⟩
  obtain ⟨none, -⟩ | ⟨m₀, m', found₀, found', version, locations⟩ := steady.chunks handle
  · rw [found] at none
    cases none
  · cases found.symm.trans found₀
    exact ⟨m', found', version.ge, locations⟩

theorem Steady.copied (steady : Steady w w') (copied : w.Copied handle m data) :
    ∃ m', w'.Copied handle m' data ∧ m'.version = m.version ∧ m'.locations = m.locations := by
  obtain ⟨none, -⟩ | ⟨m₀, m', found, found', version, locations⟩ := steady.chunks handle
  · rw [copied.known] at none
    cases none
  · cases copied.known.symm.trans found
    refine ⟨m', ⟨found', locations ▸ copied.someone, ?_, ?_, ?_⟩, version, locations⟩
    · rw [locations, version]
      intro server member
      rw [steady.entries]
      exact copied.copies server member
    · rw [locations]
      intro server outside
      rw [steady.entries]
      exact copied.nowhere server outside
    · rw [locations]
      intro server slot there held
      obtain ⟨slot₀, there₀, held₀, same⟩ := steady.leases server handle slot there held
      obtain ⟨member, secondaries⟩ := copied.leased server slot₀ there₀ held₀
      exact ⟨member, same ▸ secondaries⟩

theorem Whole.steady (whole : Whole w file) (steady : Steady w w') : Whole w' file := by
  refine ⟨steady.file ▸ whole.length, steady.file ▸ whole.nodup,
    steady.file ▸ steady.next ▸ whole.below, ?_, ?_⟩
  · rw [steady.next]
    intro handle above
    obtain ⟨none, free⟩ := whole.absent handle above
    refine ⟨?_, fun server => ⟨?_, steady.free server handle (free server).2⟩⟩
    · obtain ⟨-, none'⟩ | ⟨m, m', found, -⟩ := steady.chunks handle
      · exact none'
      · rw [none] at found
        cases found
    · rw [steady.entries]
      exact (free server).1
  · rw [steady.file]
    intro i handle data here there
    obtain ⟨m, copied⟩ := whole.chunk i handle data here there
    obtain ⟨m', copied', -⟩ := steady.copied copied
    exact ⟨m', copied'⟩

theorem SameLease.extend {slot : Option Chunkserver.Slot} (margin : Duration) (now : TimePoint)
    (lease : Duration) : SameLease slot (Chunkserver.LeaseTable.extend margin now lease slot) := by
  intro s there held
  cases slot with
  | none => cases there
  | some s₀ =>
      simp only [Chunkserver.LeaseTable.extend, Option.map_some, Option.mem_def,
        Option.some.injEq] at there
      subst there
      refine ⟨s₀, rfl, ?_, ?_⟩
      · by_contra free
        simp [free] at held
      · split <;> rfl

theorem extend_steady (asked : ServerId × Handle) : Steady w (w.extend e asked) := by
  unfold extend
  dsimp only
  split
  · cases chosen : (w.chunks asked.2).bind fun m => m.extendLocked e.cfg asked.1 w.clock with
    | none => exact .refl w
    | some m' =>
        obtain ⟨m, found, extended⟩ := Option.bind_eq_some_iff.mp chosen
        have kept : m'.version = m.version ∧ m'.locations = m.locations := by
          unfold ChunkMeta.extendLocked at extended
          split at extended
          · cases extended
          · split at extended
            · cases extended
              exact ⟨rfl, rfl⟩
            · cases extended
        refine ⟨rfl, rfl, fun handle => ?_, fun server => ?_, fun server handle => ?_,
          fun server handle none => ?_⟩
        · by_cases same : handle = asked.2
          · subst same
            exact .inr ⟨m, m', found, by simp [setChunk], kept⟩
          · cases is : w.chunks handle with
            | none => exact .inl ⟨rfl, by simp [setChunk, keep, same, is]⟩
            | some m => exact .inr ⟨m, m, rfl, by simp [setChunk, keep, same, is], rfl, rfl⟩
        · funext handle
          show ((w.keep _ _ _).servers server).entries handle = _
          rw [keep_entries]
          split
          · rename_i here
            rw [here.1, here.2]
            rfl
          · rfl
        · show SameLease _ (((w.keep _ _ _).servers server).slots handle)
          rw [keep_slots]
          split
          · rename_i here
            rw [here.1, here.2]
            exact .extend _ _ _
          · exact .refl _
        · show ((w.keep _ _ _).servers server).slots handle = Option.none
          rw [keep_slots]
          split
          · rename_i here
            rw [here.1, here.2] at none
            show Chunkserver.LeaseTable.extend _ _ _ ((w.servers asked.1).slots asked.2) = Option.none
            rw [none]
            rfl
          · exact none
  · exact .refl w

theorem tick_steady (w : World) : Steady w (w.tick e) := by
  unfold tick
  have started : Steady w { w with clock := w.clock + e.passes w.calls, calls := w.calls + 1 } :=
    ⟨rfl, rfl, (Steady.refl w).chunks, fun _ => rfl, fun _ _ => .refl _, fun _ _ none => none⟩
  generalize { w with clock := w.clock + e.passes w.calls, calls := w.calls + 1 } = w' at started
  generalize e.beats w.calls = beats
  induction beats generalizing w' with
  | nil => exact started
  | cons asked beats ih => exact ih _ (started.trans (extend_steady asked))

theorem extend_buffer (asked : ServerId × Handle) (server : ServerId) :
    ((w.extend e asked).servers server).buffer = (w.servers server).buffer := by
  unfold extend
  dsimp only
  split
  · split
    · rfl
    · show ((w.keep _ _ _).servers server).buffer = _
      rw [keep_buffer]
      split
      · rename_i here
        rw [here]
        rfl
      · rfl
  · rfl

theorem tick_waits (waits : w.Waits key data servers) : (w.tick e).Waits key data servers := by
  have same : ∀ server, ((w.tick e).servers server).buffer = (w.servers server).buffer := by
    intro server
    unfold tick
    have started : (({ w with clock := w.clock + e.passes w.calls
                              calls := w.calls + 1 } : World).servers server).buffer =
      (w.servers server).buffer := rfl
    generalize { w with clock := w.clock + e.passes w.calls, calls := w.calls + 1 } = w' at started
    generalize e.beats w.calls = beats
    induction beats generalizing w' with
    | nil => exact started
    | cons asked beats ih => exact ih _ ((extend_buffer asked server).trans started)
  intro server member
  rw [same]
  exact waits server member

/-! ## Mutations -/

section
variable {old new : Bytes} {origin : Chunkserver.Origin}
  {request : Chunkserver.ApplyMutationRequest}

theorem handler_eq {server : ServerId} {op : MutationOp} {entry : Chunkserver.ChunkEntry}
    (found : (w.servers server).entries handle = some entry) :
    w.handler e server handle origin op =
      serve e.cfg w.clock 7 ((w.view server handle).goto origin op .locked).replica := by
  unfold handler Chunkserver.Replica.start view
  rw [found]
  rfl

theorem applyMutation_eq {server : ServerId} {entry : Chunkserver.ChunkEntry}
    (found : (w.servers server).entries handle = some entry)
    (waits : w.Waits request.key new [server]) (same : entry.version = request.version)
    (stored : ∀ entry,
      (Chunkserver.ChunkStore.apply e.cfg.chunkSize .ok entry ⟨origin, request⟩ new).1 = .ok) :
    ∃ r entry', applyMutation e handle origin request (w, true) server =
        (w.keep server handle r, true) ∧ r.slot = (w.servers server).slots handle ∧
      r.entry = some entry' ∧ entry'.version = request.version ∧
      entry'.data = request.result e.cfg.chunkSize new entry.data := by
  obtain ⟨node, waits⟩ := waits server (List.mem_singleton.mpr rfl)
  have applied : Chunkserver.ChunkStore.apply e.cfg.chunkSize .ok entry ⟨origin, request⟩ new =
      (.ok, (Chunkserver.ChunkStore.apply e.cfg.chunkSize .ok entry ⟨origin, request⟩ new).2) :=
    Prod.ext (stored entry) rfl
  have found' : (w.view server handle).entry = some entry := found
  have started : w.handler e server handle origin (.apply request) =
      serve e.cfg w.clock 7 ((w.view server handle).goto origin (.apply request) .locked).replica :=
    handler_eq found
  have waits' : (w.view server handle).buffer.entryOf request.key = some ⟨node, request.key, new⟩ :=
    waits
  obtain ⟨response, entry', slot⟩ := serve_apply found' waits' same applied started
  refine ⟨(w.handler e server handle origin (.apply request)).replica, _, ?_, slot, entry', ?_,
    apply_result applied⟩
  · unfold applyMutation
    simp [response]
  · rw [Chunkserver.ChunkStore.applied_version applied, same]

/-- What the secondaries do with a mutation that the primary has stored. -/
theorem forward_all {rest : List ServerId} (nodup : rest.Nodup)
    (ready : ∀ server ∈ rest, ∃ entry, (w.servers server).entries handle = some entry ∧
      entry.version = request.version ∧ entry.data = old)
    (waits : w.Waits request.key new rest)
    (stored : ∀ entry,
      (Chunkserver.ChunkStore.apply e.cfg.chunkSize .ok entry ⟨origin, request⟩ new).1 = .ok) :
    ∃ w', rest.foldl (applyMutation e handle origin request) (w, true) = (w', true) ∧
      Beside w w' handle ∧ w'.chunks = w.chunks ∧
      (∀ server, server ∉ rest → w'.servers server = w.servers server) ∧
      ∀ server ∈ rest, (w'.servers server).slots handle = (w.servers server).slots handle ∧
        ∃ entry, (w'.servers server).entries handle = some entry ∧
          entry.version = request.version ∧
          entry.data = request.result e.cfg.chunkSize new old := by
  induction rest generalizing w with
  | nil => exact ⟨w, rfl, .refl w, rfl, fun _ _ => rfl, nofun⟩
  | cons server rest ih =>
      obtain ⟨outside, nodup⟩ := List.nodup_cons.mp nodup
      obtain ⟨entry, found, same, is⟩ := ready server List.mem_cons_self
      obtain ⟨r, entry', first, slot, kept, version, result⟩ := applyMutation_eq found
        (fun s only => waits s (List.mem_singleton.mp only ▸ List.mem_cons_self)) same stored
      have elsewhere : ∀ other ∈ rest, (w.keep server handle r).servers other = w.servers other :=
        fun other member => keep_servers fun here => outside (here ▸ member)
      obtain ⟨w', all, beside, chunks, others, done⟩ := ih nodup
        (fun other member => by
          rw [elsewhere other member]
          exact ready other (List.mem_cons_of_mem _ member))
        (fun other member => by
          rw [elsewhere other member]
          exact waits other (List.mem_cons_of_mem _ member))
      refine ⟨w', ?_, keep_beside.trans beside, chunks, fun other apart => ?_, fun other member => ?_⟩
      · rw [List.foldl_cons, first]
        exact all
      · obtain ⟨different, apart⟩ := not_or.mp (fun either => apart (List.mem_cons.mpr either))
        rw [others other apart, keep_servers different]
      · rcases List.mem_cons.mp member with rfl | member
        · rw [others other outside, keep_slots, if_pos ⟨rfl, rfl⟩, keep_entries, if_pos ⟨rfl, rfl⟩]
          exact ⟨slot, entry', kept, version, is ▸ result⟩
        · rw [← elsewhere other member]
          exact done other member

theorem Copied.leased_of (copied : w.Copied handle m data) {server : ServerId}
    {slot' : Option Chunkserver.Slot} (same : SameLease ((w.servers server).slots handle) slot')
    {slot : Chunkserver.Slot} (there : slot ∈ slot') (held : slot.held = true) :
    server ∈ m.locations.keys ∧ slot.secondaries = m.locations.keys.filter (· ≠ server) := by
  obtain ⟨slot₀, there₀, held₀, secondaries⟩ := same slot there held
  rw [← secondaries]
  exact copied.leased server slot₀ there₀ held₀

variable {server : ServerId} {op : MutationOp}

theorem Copied.refused (copied : w.Copied handle m data)
    (refused : Refused (w.view server handle) (w.handler e server handle ⟨server, w.calls⟩ op)) :
    Beside w (w.mutate e server handle op).2 handle ∧
      (w.mutate e server handle op).2.Copied handle m data ∧
      (w.mutate e server handle op).1.code ≠ .ok ∧
      (w.mutate e server handle op).1.code ≠ .retryNextChunk := by
  obtain ⟨⟨code, bad, full, response⟩, entry, lease⟩ := refused
  have is : w.mutate e server handle op =
      ({ code }, w.keep server handle (w.handler e server handle ⟨server, w.calls⟩ op).replica) := by
    unfold mutate
    simp [response]
  rw [is]
  have entries : ∀ other, ((w.keep server handle
      (w.handler e server handle ⟨server, w.calls⟩ op).replica).servers other).entries handle =
        (w.servers other).entries handle := by
    intro other
    rw [keep_entries]
    split
    · rename_i here
      rw [here.1, entry]
      rfl
    · rfl
  refine ⟨keep_beside, ⟨copied.known, copied.someone, ?_, ?_, ?_⟩, bad, full⟩
  · intro other member
    rw [entries]
    exact copied.copies other member
  · intro other outside
    rw [entries]
    exact copied.nowhere other outside
  · intro other slot there held
    rw [keep_slots] at there
    split at there
    · rename_i here
      rw [here.1]
      exact copied.leased_of lease there held
    · exact copied.leased other slot there held

theorem Copied.sent (copied : w.Copied handle m data)
    {entry : Chunkserver.ChunkEntry} (found : (w.servers server).entries handle = some entry)
    (member : server ∈ m.locations.keys) (version : entry.version = m.version)
    (is : entry.data = data) (waits : w.Waits op.key new m.locations.keys)
    {secondaries : List ServerId}
    (sends : Sends e.cfg w.clock (w.view server handle) entry new ⟨server, w.calls⟩ op secondaries
      request (w.handler e server handle ⟨server, w.calls⟩ op)) :
    Beside w (w.mutate e server handle op).2 handle ∧
      (w.mutate e server handle op).1 = Chunkserver.Replica.afterForward request true op ∧
      (w.mutate e server handle op).2.Copied handle m
        (request.result e.cfg.chunkSize new data) := by
  obtain ⟨entry', kept, stored⟩ := sends.stored
  have group : secondaries = m.locations.keys.filter (· ≠ server) := by
    obtain ⟨slot, there, held, -, rfl⟩ := Chunkserver.LeaseTable.check_primary.mp sends.leased
    exact (copied.leased server slot there held).2
  have same := sends.placed.version.trans sends.version.symm
  have accepts : ∀ other, (Chunkserver.ChunkStore.apply e.cfg.chunkSize .ok other
      ⟨⟨server, w.calls⟩, request⟩ new).1 = .ok := by
    intro other
    exact apply_code.trans (congrArg Prod.fst stored)
  have inGroup : ∀ other ∈ secondaries, other ∈ m.locations.keys ∧ other ≠ server := by
    rw [group]
    intro other there
    simpa using List.mem_filter.mp there
  generalize kept_is : w.handler e server handle ⟨server, w.calls⟩ op = out at sends kept
  have elsewhere : ∀ other ∈ secondaries,
      (w.keep server handle out.replica).servers other = w.servers other :=
    fun other there => keep_servers (inGroup other there).2
  have nodup : secondaries.Nodup := group ▸ Std.ExtTreeMap.nodup_keys.filter _
  have ready : ∀ other ∈ secondaries, ∃ entry,
      ((w.keep server handle out.replica).servers other).entries handle = some entry ∧
        entry.version = request.version ∧ entry.data = data := by
    intro other there
    rw [elsewhere other there]
    obtain ⟨entry, found, version', is⟩ := copied.copies other (inGroup other there).1
    exact ⟨entry, found, version'.trans (version.symm.trans same.symm), is⟩
  have pushed : (w.keep server handle out.replica).Waits request.key new secondaries := by
    intro other there
    rw [elsewhere other there, sends.placed.key]
    exact waits other (inGroup other there).1
  obtain ⟨w', all, beside, chunks, others, done⟩ := forward_all nodup ready pushed accepts
  have result : w.mutate e server handle op =
      (Chunkserver.Replica.afterForward request true op, w') := by
    unfold mutate
    simp [kept_is, sends.response, sends.frame, all]
  rw [result]
  have outside : server ∉ secondaries := fun there => (inGroup server there).2 rfl
  have here : (w'.servers server).entries handle = some entry' := by
    rw [others server outside, keep_entries, if_pos ⟨rfl, rfl⟩]
    exact kept
  refine ⟨keep_beside.trans beside, rfl, ⟨?_, copied.someone, ?_, ?_, ?_⟩⟩
  · rw [chunks]
    exact copied.known
  · intro other there
    by_cases primary : other = server
    · subst primary
      refine ⟨entry', here, ?_, ?_⟩
      · rw [Chunkserver.ChunkStore.applied_version stored, version]
      · rw [apply_result stored, is]
    · obtain ⟨-, entry, found, version', result⟩ := done other (by
        rw [group]
        exact List.mem_filter.mpr ⟨there, by simpa using primary⟩)
      exact ⟨entry, found, version'.trans (same.trans version), result⟩
  · intro other nowhere
    have apart : other ∉ secondaries := fun there => nowhere (inGroup other there).1
    have different : other ≠ server := fun same => nowhere (same ▸ member)
    rw [others other apart, keep_servers different]
    exact copied.nowhere other nowhere
  · intro other slot there held
    by_cases primary : other = server
    · subst primary
      rw [others other outside, keep_slots, if_pos ⟨rfl, rfl⟩] at there
      exact copied.leased_of sends.lease there held
    · refine copied.leased other slot ?_ held
      by_cases second : other ∈ secondaries
      · rw [(done other second).1, keep_servers primary] at there
        exact there
      · rw [others other second, keep_servers primary] at there
        exact there

theorem mutate_cases (copied : w.Copied handle m data)
    (waits : w.Waits op.key new m.locations.keys) (client : op.isClient = true) :
    Beside w (w.mutate e server handle op).2 handle ∧
      (((w.mutate e server handle op).2.Copied handle m data ∧
          (w.mutate e server handle op).1.code ≠ .ok ∧
          (w.mutate e server handle op).1.code ≠ .retryNextChunk) ∨
        ∃ request, Chunkserver.Placed e.cfg.chunkSize data new op request ∧
          (w.mutate e server handle op).1 = Chunkserver.Replica.afterForward request true op ∧
          (w.mutate e server handle op).2.Copied handle m
            (request.result e.cfg.chunkSize new data)) := by
  cases found : (w.servers server).entries handle with
  | none =>
      have answered : w.handler e server handle ⟨server, w.calls⟩ op =
          { replica := w.view server handle, response := some { code := .noSuchChunk } } := by
        unfold handler Chunkserver.Replica.start
        simp [view, found]
      have refused : Refused (w.view server handle) (w.handler e server handle ⟨server, w.calls⟩ op) := by
        rw [answered]
        exact ⟨⟨_, by decide, by decide, rfl⟩, rfl, .refl _⟩
      obtain ⟨beside, kept⟩ := copied.refused refused
      exact ⟨beside, .inl kept⟩
  | some entry =>
      have member : server ∈ m.locations.keys := by
        by_contra outside
        rw [copied.nowhere server outside] at found
        cases found
      obtain ⟨node, held⟩ := waits server member
      obtain ⟨same, there, version, is⟩ := copied.copies server member
      cases found.symm.trans there
      have found' : (w.view server handle).entry = some entry := found
      rcases serve_client found' held client (handler_eq found) with refused | ⟨_, request, sends⟩
      · obtain ⟨beside, kept⟩ := copied.refused refused
        exact ⟨beside, .inl kept⟩
      · obtain ⟨beside, response, kept⟩ := copied.sent found member version is waits sends
        exact ⟨beside, .inr ⟨request, is ▸ sends.placed, response, kept⟩⟩

end

/-! ## Leases -/

section
variable {server : ServerId} {half : Chunkserver.Half} {entry : Chunkserver.ChunkEntry}

/-- The slot after `GrantLease` or `UpdateVersion`. -/
def slotAfter (e : Setting) (now : TimePoint) (slot : Option Chunkserver.Slot) :
    Chunkserver.Half → Option Chunkserver.Slot
  | .grant _ lease secondaries _ =>
      some (Chunkserver.LeaseTable.grant e.cfg.leaseClockSkewMargin now lease secondaries slot)
  | .update _ _ => Chunkserver.LeaseTable.revoke slot

theorem takeVersion_eq (found : (w.servers server).entries handle = some entry) :
    ∃ r, w.takeVersion e handle half server = w.keep server handle r ∧
      r.entry = some { entry with version := half.version } ∧
      r.slot = slotAfter e w.clock ((w.servers server).slots handle) half := by
  have found' : (w.view server handle).entry = some entry := found
  refine ⟨_, rfl, ?_, ?_⟩
  · unfold Chunkserver.Replica.setVersion Chunkserver.ChunkStore.setVersion
    rw [found']
    by_cases same : entry.version = half.version
    · have eta : { entry with version := half.version } = entry := by rw [← same]
      rw [eta]
      cases half <;> simp [same, Chunkserver.Replica.completeHalf]
    · cases half <;> simp [same, Chunkserver.Replica.completeHalf]
  · unfold Chunkserver.Replica.setVersion Chunkserver.ChunkStore.setVersion
    rw [found']
    by_cases same : entry.version = half.version
    · cases half <;> simp [same, Chunkserver.Replica.completeHalf, slotAfter, view]
    · cases half <;> simp [same, Chunkserver.Replica.completeHalf, slotAfter, view]

theorem updateAll {rest : List ServerId} (nodup : rest.Nodup) (version : Nat)
    (ready : ∀ server ∈ rest, ∃ entry, (w.servers server).entries handle = some entry) :
    let w' := rest.foldl (takeVersion e handle (.update version 0)) w
    Beside w w' handle ∧ w'.chunks = w.chunks ∧
      (∀ server, server ∉ rest → w'.servers server = w.servers server) ∧
      ∀ server ∈ rest,
        (w'.servers server).slots handle =
          Chunkserver.LeaseTable.revoke ((w.servers server).slots handle) ∧
        (w'.servers server).entries handle =
          ((w.servers server).entries handle).map fun entry => { entry with version } := by
  induction rest generalizing w with
  | nil => exact ⟨.refl w, rfl, fun _ _ => rfl, nofun⟩
  | cons server rest ih =>
      obtain ⟨outside, nodup⟩ := List.nodup_cons.mp nodup
      obtain ⟨entry, found⟩ := ready server List.mem_cons_self
      obtain ⟨r, first, kept, slot⟩ : ∃ r, w.takeVersion e handle (.update version 0) server =
        w.keep server handle r ∧ _ := takeVersion_eq found
      have elsewhere : ∀ other ∈ rest, (w.keep server handle r).servers other = w.servers other :=
        fun other member => keep_servers fun here => outside (here ▸ member)
      obtain ⟨beside, chunks, others, done⟩ := @ih (w.keep server handle r) nodup
        fun other member => by
          rw [elsewhere other member]
          exact ready other (List.mem_cons_of_mem _ member)
      rw [List.foldl_cons, first]
      refine ⟨keep_beside.trans beside, chunks, fun other apart => ?_, fun other member => ?_⟩
      · obtain ⟨different, apart⟩ := not_or.mp (fun either => apart (List.mem_cons.mpr either))
        rw [others other apart, keep_servers different]
      · rcases List.mem_cons.mp member with rfl | member
        · rw [others other outside, keep_slots, if_pos ⟨rfl, rfl⟩, keep_entries, if_pos ⟨rfl, rfl⟩,
            found]
          exact ⟨slot, kept⟩
        · rw [← elsewhere other member]
          exact done other member

/-- A lease that the client knows is one of the chunk and names its whole group. -/
def Leased (w : World) (index : Nat) (lease : Lease) : Prop :=
  w.file[index]? = some lease.handle ∧ ∃ m, w.chunks lease.handle = some m ∧
    ∀ server ∈ m.locations.keys, ∃ replica ∈ lease.primary :: lease.secondaries,
      replica.chunkserverId = server

theorem prepareLocked_all {cfg : Config} {attempt : Master.Attempt}
    (prepared : m.prepareLocked cfg (fun _ => true) = some (attempt, m')) :
    attempt.primary ∈ m.locations.keys ∧
      attempt.secondaries = m.locations.keys.filter (· ≠ attempt.primary) := by
  have all : m.live (fun _ => true) = m.locations.keys := List.filter_eq_self.mpr fun _ _ => rfl
  unfold ChunkMeta.prepareLocked at prepared
  rw [all] at prepared
  cases keys : m.locations.keys with
  | nil => simp [keys] at prepared
  | cons front rest =>
      simp only [keys] at prepared
      split at prepared
      · cases prepared
      · cases prepared
        exact ⟨ChunkMeta.choosePrimary_mem, rfl⟩

/-- A round of `GrantSerialized` in which everyone acknowledges. -/
theorem grant_committed {attempt : Master.Attempt} (copied : w.Copied handle m data)
    (prepared : m.prepareLocked e.cfg (fun _ => true) = some (attempt, m')) :
    ∃ w' m'', w.grant e handle m = ((.ok, .ok,
        { handle
          version := m''.version
          primary := e.replica attempt.primary
          secondaries := attempt.secondaries.map e.replica }), w') ∧
      Beside w w' handle ∧ w'.Copied handle m'' data ∧ m''.version = m.version + 1 ∧
        m''.locations = m.locations := by
  obtain ⟨member, secondaries⟩ := prepareLocked_all prepared
  obtain ⟨rfl, version, -, -⟩ := ChunkMeta.prepareLocked_eq prepared
  obtain ⟨entry, found, -, is⟩ := copied.copies attempt.primary member
  obtain ⟨r, first, kept, slot⟩ : ∃ r, w.takeVersion e handle (.grant attempt.version
    e.cfg.leaseDuration attempt.secondaries 0) attempt.primary =
      w.keep attempt.primary handle r ∧ _ := takeVersion_eq found
  have inGroup : ∀ other ∈ attempt.secondaries, other ∈ m.locations.keys ∧ other ≠ attempt.primary := by
    rw [secondaries]
    intro other there
    simpa using List.mem_filter.mp there
  have outside : attempt.primary ∉ attempt.secondaries := fun there => (inGroup _ there).2 rfl
  have elsewhere : ∀ other, other ≠ attempt.primary →
      (w.keep attempt.primary handle r).servers other = w.servers other := fun _ => keep_servers
  have nodup : attempt.secondaries.Nodup := secondaries ▸ Std.ExtTreeMap.nodup_keys.filter _
  obtain ⟨beside, chunks, others, done⟩ := @updateAll e (w.keep attempt.primary handle r) handle _
    nodup attempt.version fun other there => by
      rw [elsewhere other (inGroup other there).2]
      obtain ⟨entry, found, -⟩ := copied.copies other (inGroup other there).1
      exact ⟨entry, found⟩
  generalize all : attempt.secondaries.foldl (takeVersion e handle (.update attempt.version 0))
    (w.keep attempt.primary handle r) = w' at beside chunks others done
  have newer : max m.version attempt.version = m.version + 1 := by omega
  have granted : w.grant e handle m = ((.ok, .ok,
      { handle
        version := (({ m with granting := true } : ChunkMeta).commit e.cfg w'.clock attempt).version
        primary := e.replica attempt.primary
        secondaries := attempt.secondaries.map e.replica }),
      w'.setChunk handle (({ m with granting := true } : ChunkMeta).commit e.cfg w'.clock attempt)) := by
    unfold grant
    simp only [prepared, first, all]
  refine ⟨_, _, granted, ?_, ⟨Function.update_self .., copied.someone, ?_, ?_, ?_⟩, newer, rfl⟩
  · refine keep_beside.trans (beside.trans ⟨rfl, rfl, fun other different => ?_,
      fun _ _ _ => rfl, fun _ _ _ => rfl⟩)
    exact Function.update_of_ne different _ _
  · intro other there
    show ∃ entry, (w'.servers other).entries handle = some entry ∧
      entry.version = max m.version attempt.version ∧ entry.data = data
    rw [newer, ← version]
    by_cases primary : other = attempt.primary
    · subst primary
      rw [others _ outside, keep_entries, if_pos ⟨rfl, rfl⟩]
      exact ⟨_, kept, rfl, is⟩
    · have second : other ∈ attempt.secondaries := by
        rw [secondaries]
        exact List.mem_filter.mpr ⟨there, by simpa using primary⟩
      obtain ⟨entry, found, -, is⟩ := copied.copies other there
      rw [(done other second).2, elsewhere other primary, found]
      exact ⟨_, rfl, rfl, is⟩
  · intro other nowhere
    have apart : other ∉ attempt.secondaries := fun there => nowhere (inGroup other there).1
    have different : other ≠ attempt.primary := fun same => nowhere (same ▸ member)
    show (w'.servers other).entries handle = none
    rw [others other apart, keep_servers different]
    exact copied.nowhere other nowhere
  · intro other slot' there held
    have there : slot' ∈ (w'.servers other).slots handle := there
    by_cases primary : other = attempt.primary
    · subst primary
      rw [others _ outside, keep_slots, if_pos ⟨rfl, rfl⟩, slot] at there
      cases there
      exact ⟨member, secondaries⟩
    · by_cases second : other ∈ attempt.secondaries
      · rw [(done other second).1] at there
        obtain ⟨before, -, rfl⟩ := Option.map_eq_some_iff.mp there
        cases held
      · rw [others other second, keep_servers primary] at there
        exact copied.leased other slot' there held

theorem findLeaseHolder_cases {index : Nat} (whole : Whole w file) :
    Whole (w.findLeaseHolder e e.path index).2 file ∧
      Onward w (w.findLeaseHolder e e.path index).2 ∧
      (((w.findLeaseHolder e e.path index).1.1 = .notFound ∧ file.length ≤ index) ∨
        (w.findLeaseHolder e e.path index).1.1 = .ok ∧
          ((w.findLeaseHolder e e.path index).1.2.1 = .noReplicas ∨
            (w.findLeaseHolder e e.path index).1.2.1 = .ok ∧
              (w.findLeaseHolder e e.path index).2.Leased index
                (w.findLeaseHolder e e.path index).1.2.2)) := by
  by_cases inside : index < file.length
  · obtain ⟨handle, m, here, copied⟩ := whole.found inside
    unfold findLeaseHolder
    simp only [here, Option.filter_some, decide_true, if_true, Option.bind_some, copied.known]
    cases valid : m.lease.filter fun _ => m.isValid e.cfg w.clock with
    | some lease =>
        dsimp only
        refine ⟨whole, .refl w, .inr ⟨rfl, .inr ⟨rfl, here, m, copied.known, fun server member => ?_⟩⟩⟩
        by_cases primary : server = lease.primary
        · exact ⟨_, List.mem_cons_self, primary ▸ e.named _⟩
        · refine ⟨e.replica server, List.mem_cons_of_mem _ (List.mem_map_of_mem ?_), e.named _⟩
          exact List.mem_filter.mpr ⟨member, by simpa using primary⟩
    | none =>
        dsimp only
        generalize w.waited e m = clock
        have beside : Beside w (({ w with clock } : World).setChunk handle { m with lease := none })
            handle := ⟨rfl, rfl, fun other different => Function.update_of_ne different _ _,
          fun _ _ _ => rfl, fun _ _ _ => rfl⟩
        have freed : (({ w with clock } : World).setChunk handle { m with lease := none }).Copied
            handle { m with lease := none } file[index] :=
          ⟨Function.update_self .., copied.someone, copied.copies, copied.nowhere, copied.leased⟩
        generalize (({ w with clock } : World).setChunk handle { m with lease := none }) = w₁
          at beside freed
        cases prepared : ({ m with lease := none } : ChunkMeta).prepareLocked e.cfg fun _ => true with
        | none =>
            have is : w₁.grant e handle { m with lease := none } = ((.ok, .noReplicas, noLease), w₁) := by
              unfold grant
              rw [prepared]
            rw [is]
            refine ⟨?_, beside.onward copied.known freed.known le_rfl rfl, .inr ⟨rfl, .inl rfl⟩⟩
            have kept := whole.update beside here freed
            rwa [List.set_getElem_self] at kept
        | some both =>
            obtain ⟨attempt, m'⟩ := both
            obtain ⟨w', m'', granted, after, copied', version, locations⟩ :=
              grant_committed freed prepared
            obtain ⟨member, secondaries⟩ := prepareLocked_all prepared
            rw [granted]
            have through := beside.trans after
            refine ⟨?_, through.onward copied.known copied'.known (by simp [version]) locations,
              .inr ⟨rfl, .inr ⟨rfl, ?_, m'', copied'.known, ?_⟩⟩⟩
            · have kept := whole.update through here copied'
              rwa [List.set_getElem_self] at kept
            · rw [through.file]
              exact here
            · rw [locations]
              intro server there
              by_cases primary : server = attempt.primary
              · exact ⟨_, List.mem_cons_self, primary ▸ e.named _⟩
              · refine ⟨e.replica server, List.mem_cons_of_mem _ (List.mem_map_of_mem ?_), e.named _⟩
                rw [secondaries]
                exact List.mem_filter.mpr ⟨there, by simpa using primary⟩
  · have absent : w.file[index]? = none :=
      List.getElem?_eq_none (whole.length ▸ Nat.le_of_not_lt inside)
    unfold findLeaseHolder
    simp only [absent, Option.filter_none, Option.bind_none]
    exact ⟨whole, .refl w, .inl ⟨trivial, Nat.le_of_not_lt inside⟩⟩

end

/-! ## New chunks -/

section
variable {server : ServerId}

theorem createAll (servers : List ServerId)
    (free : ∀ server, (w.servers server).entries handle = none ∨
      (w.servers server).entries handle = some { version := 1 }) :
    let w' := servers.foldl (createOn handle) w
    Beside w w' handle ∧ w'.chunks = w.chunks ∧
      ∀ server, (w'.servers server).slots handle = (w.servers server).slots handle ∧
        (w'.servers server).entries handle =
          if server ∈ servers then some { version := 1 } else (w.servers server).entries handle := by
  induction servers generalizing w with
  | nil => exact ⟨.refl w, rfl, fun _ => ⟨rfl, rfl⟩⟩
  | cons server servers ih =>
      have created : ((w.view server handle).createChunk 1 []).2.entry = some { version := 1 } ∧
          ((w.view server handle).createChunk 1 []).2.slot = (w.servers server).slots handle := by
        unfold Chunkserver.Replica.createChunk view
        rcases free server with none | there
        · simp [none]
        · simp [there]
      have slots : ∀ other, ((createOn handle w server).servers other).slots handle =
          (w.servers other).slots handle := by
        intro other
        unfold createOn
        rw [keep_slots]
        split
        · rename_i here
          rw [here.1]
          exact created.2
        · rfl
      have entries : ∀ other, ((createOn handle w server).servers other).entries handle =
          if other = server then some { version := 1 } else (w.servers other).entries handle := by
        intro other
        unfold createOn
        rw [keep_entries, created.1]
        simp
      obtain ⟨beside, chunks, each⟩ := @ih (createOn handle w server) fun other => by
        rw [entries]
        split
        · exact .inr rfl
        · exact free other
      refine ⟨keep_beside.trans beside, chunks, fun other => ⟨(each other).1.trans (slots other), ?_⟩⟩
      rw [List.foldl_cons, (each other).2, entries]
      by_cases same : other = server <;> simp [same]

theorem locations_addAll {time : TimePoint} (servers : List ServerId) (m : ChunkMeta) :
    (servers.foldl (fun m server => m.addLocation server time) m).version = m.version ∧
      ∀ server, server ∈ (servers.foldl (fun m server => m.addLocation server time) m).locations ↔
        server ∈ m.locations ∨ server ∈ servers := by
  induction servers generalizing m with
  | nil => simp
  | cons server servers ih =>
      obtain ⟨version, each⟩ := ih (m.addLocation server time)
      refine ⟨version, fun other => ?_⟩
      rw [List.foldl_cons, each]
      simp only [ChunkMeta.addLocation, Std.ExtTreeMap.mem_insertIfNew, List.mem_cons,
        Std.compare_eq_iff_eq]
      tauto

theorem Whole.created {servers : List ServerId} (whole : Whole w file)
    (beside : Beside { w with nextHandle := w.nextHandle + 1 } w' w.nextHandle)
    (chunks : w'.chunks = w.chunks)
    (each : ∀ server, (w'.servers server).slots w.nextHandle = (w.servers server).slots w.nextHandle ∧
      (w'.servers server).entries w.nextHandle =
        if server ∈ servers then some { version := 1 }
        else (w.servers server).entries w.nextHandle) :
    Whole w' file := by
  have older : ∀ handle ∈ w.file, handle ≠ w.nextHandle := fun handle member =>
    (whole.below handle member).ne
  refine ⟨whole.length.trans (congrArg List.length beside.file.symm), beside.file ▸ whole.nodup,
    ?_, ?_, ?_⟩
  · rw [beside.file, beside.next]
    exact fun handle member => (whole.below handle member).trans (Nat.lt_succ_self _)
  · rw [beside.next, chunks]
    intro handle above
    have different : handle ≠ w.nextHandle := (Nat.lt_of_succ_le above).ne'
    obtain ⟨none, free⟩ := whole.absent handle (Nat.le_of_succ_le above)
    exact ⟨none, fun server => ⟨(beside.entries server handle different).trans (free server).1,
      (beside.slots server handle different).trans (free server).2⟩⟩
  · rw [beside.file]
    intro i handle data here found
    obtain ⟨m, copied⟩ := whole.chunk i handle data here found
    have before : ({ w with nextHandle := w.nextHandle + 1 } : World).Copied handle m data :=
      ⟨copied.known, copied.someone, copied.copies, copied.nowhere, copied.leased⟩
    exact ⟨m, before.beside beside (older handle (List.mem_of_getElem? here))⟩

theorem Whole.append (whole : Whole w file) (outside : handle ∉ w.file)
    (below : handle < w.nextHandle) (copied : (w.setChunk handle m).Copied handle m data) :
    Whole { w.setChunk handle m with file := w.file ++ [handle] } (file ++ [data]) := by
  have beside : Beside w (w.setChunk handle m) handle :=
    ⟨rfl, rfl, fun other different => Function.update_of_ne different _ _, fun _ _ _ => rfl,
      fun _ _ _ => rfl⟩
  refine ⟨?_, ?_, ?_, fun other above => ?_, fun i other data' here found => ?_⟩
  · simp [whole.length]
  · exact List.nodup_append.mpr ⟨whole.nodup, List.nodup_singleton _, fun other there _ last same =>
      outside (List.mem_singleton.mp last ▸ same ▸ there)⟩
  · intro other member
    rcases List.mem_append.mp member with old | new
    · exact whole.below other old
    · exact List.mem_singleton.mp new ▸ below
  · obtain ⟨none, free⟩ := whole.absent other above
    have different : other ≠ handle := fun same => absurd below (Nat.not_lt.mpr (same ▸ above))
    exact ⟨(Function.update_of_ne different _ _).trans none, free⟩
  · have moved : ∀ {other m₀ data₀}, (w.setChunk handle m).Copied other m₀ data₀ →
        ({ w.setChunk handle m with file := w.file ++ [handle] } : World).Copied other m₀ data₀ :=
      fun copied => ⟨copied.known, copied.someone, copied.copies, copied.nowhere, copied.leased⟩
    have here : (w.file ++ [handle])[i]? = some other := here
    by_cases before : i < w.file.length
    · rw [List.getElem?_append_left before] at here
      rw [List.getElem?_append_left (whole.length ▸ before)] at found
      obtain ⟨m₀, copied⟩ := whole.chunk i other data' here found
      exact ⟨m₀, moved (copied.beside beside fun same =>
        outside (same ▸ List.mem_of_getElem? here))⟩
    · have after := Nat.le_of_not_lt before
      rw [List.getElem?_append_right after, List.getElem?_singleton] at here
      rw [List.getElem?_append_right (whole.length ▸ after), List.getElem?_singleton,
        whole.length] at found
      split at here
      · rename_i last
        rw [if_pos last] at found
        cases here
        cases found
        exact ⟨m, moved copied⟩
      · cases here

theorem addChunk_cases {index : Nat} (whole : Whole w file) :
    Onward w (w.addChunk e e.path index).2 ∧
      (Whole (w.addChunk e e.path index).2 file ∧
          ((w.addChunk e e.path index).1.1 = .invalidArgument ∧ file.length < index ∨
            (w.addChunk e e.path index).1.1 = .ok ∧
              ((w.addChunk e e.path index).1.2 = .noReplicas ∨ index < file.length)) ∨
        index = file.length ∧ (w.addChunk e e.path index).1 = (.ok, .ok) ∧
          Whole (w.addChunk e e.path index).2 (file ++ [[]])) := by
  unfold addChunk
  rw [if_neg (not_not.mpr rfl), ← whole.length]
  by_cases before : index < file.length
  · rw [if_pos before]
    exact ⟨.refl w, .inl ⟨whole, .inr ⟨rfl, .inr before⟩⟩⟩
  · by_cases after : file.length < index
    · rw [if_neg before, if_pos after]
      exact ⟨.refl w, .inl ⟨whole, .inl ⟨rfl, after⟩⟩⟩
    · rw [if_neg before, if_neg after]
      have last : index = file.length := by omega
      obtain ⟨unknown, free⟩ := whole.absent w.nextHandle le_rfl
      obtain ⟨beside, chunks, each⟩ := @createAll { w with nextHandle := w.nextHandle + 1 }
        w.nextHandle (e.chooses w.nextHandle) fun server => .inl (free server).1
      dsimp only
      generalize (e.chooses w.nextHandle).foldl (createOn w.nextHandle)
        { w with nextHandle := w.nextHandle + 1 } = w' at beside chunks each
      have kept : Whole w' file := whole.created beside chunks each
      have onward : Onward w w' := ⟨beside.file ▸ List.prefix_rfl, fun handle m found =>
        ⟨m, (congrFun chunks handle).trans found, le_rfl, rfl⟩⟩
      split
      · exact ⟨onward, .inl ⟨kept, .inr ⟨rfl, .inl rfl⟩⟩⟩
      · rename_i enough
        obtain ⟨version, located⟩ :=
          @locations_addAll w'.clock (e.chooses w.nextHandle) { refcount := 1 }
        generalize (e.chooses w.nextHandle).foldl (fun m server => m.addLocation server w'.clock)
          ({ refcount := 1 } : ChunkMeta) = m at version located
        have keys : ∀ server, server ∈ m.locations.keys ↔ server ∈ e.chooses w.nextHandle := by
          intro server
          rw [Std.ExtTreeMap.mem_keys, located]
          simp
        refine ⟨onward.trans ⟨List.prefix_append _ _, fun handle m found => ?_⟩,
          .inr ⟨last, rfl, ?_⟩⟩
        · have old : handle ≠ w.nextHandle := by
            rintro rfl
            rw [chunks, unknown] at found
            cases found
          exact ⟨m, (Function.update_of_ne old _ _).trans found, le_rfl, rfl⟩
        · have outside : w.nextHandle ∉ w'.file := fun there =>
            Nat.lt_irrefl _ (whole.below _ (beside.file ▸ there))
          have below : w.nextHandle < w'.nextHandle := by
            rw [beside.next]
            exact Nat.lt_succ_self _
          refine kept.append outside below ⟨Function.update_self .., ?_, ?_, ?_, ?_⟩
          · intro nobody
            obtain ⟨server, member⟩ := List.exists_mem_of_ne_nil _ fun empty => enough (.inr empty)
            exact List.not_mem_nil (nobody ▸ (keys server).mpr member)
          · intro server member
            refine ⟨_, ((each server).2.trans (if_pos ((keys server).mp member))), version.symm, rfl⟩
          · intro server nowhere
            exact ((each server).2.trans (if_neg fun member => nowhere ((keys server).mpr member))).trans
              (free server).1
          · intro server slot there
            have there : slot ∈ (w'.servers server).slots w.nextHandle := there
            rw [(each server).1] at there
            exact absurd ((free server).2.symm.trans there) nofun

end

/-! ## Data and reads -/

/-- A location that the client knows: perhaps at an old version. -/
def Located (e : Setting) (w : World) (index : Nat) (chunk : ChunkInfo) : Prop :=
  w.file[index]? = some chunk.handle ∧ ∃ m, w.chunks chunk.handle = some m ∧
    chunk.version ≤ m.version ∧ chunk.replicas = m.locations.keys.map e.replica

theorem Onward.here {index : Nat} (onward : Onward w w') (here : w.file[index]? = some handle) :
    w'.file[index]? = some handle := by
  obtain ⟨rest, same⟩ := onward.file
  rw [← same, List.getElem?_append_left (List.getElem?_eq_some_iff.mp here).1]
  exact here

theorem Located.onward {index : Nat} {chunk : ChunkInfo} (located : w.Located e index chunk)
    (onward : Onward w w') : w'.Located e index chunk := by
  obtain ⟨here, m, found, version, replicas⟩ := located
  obtain ⟨m', found', newer, same⟩ := onward.chunks _ m found
  exact ⟨onward.here here, m', found', version.trans newer, same ▸ replicas⟩

theorem Leased.onward {index : Nat} {lease : Lease} (leased : w.Leased index lease)
    (onward : Onward w w') : w'.Leased index lease := by
  obtain ⟨here, m, found, group⟩ := leased
  obtain ⟨m', found', -, same⟩ := onward.chunks _ m found
  exact ⟨onward.here here, m', found', same ▸ group⟩

theorem push_steady (replica : Replica) : Steady w (w.push key data replica) := by
  have same : ∀ server, ((w.push key data replica).servers server).entries = (w.servers server).entries ∧
      ((w.push key data replica).servers server).slots = (w.servers server).slots := by
    intro server
    unfold push
    by_cases here : server = replica.chunkserverId
    · subst here
      simp
    · simp [here]
  refine ⟨rfl, rfl, (Steady.refl w).chunks, fun server => (same server).1, fun server handle => ?_,
    fun server handle none => ?_⟩
  · rw [(same server).2]
    exact .refl _
  · rw [(same server).2]
    exact none

theorem pushAll (replicas : List Replica) :
    Steady w (replicas.foldl (push key data) w) ∧
      (replicas.foldl (push key data) w).Waits key data (replicas.map (·.chunkserverId)) ∧
      ∀ servers, w.Waits key data servers → (replicas.foldl (push key data) w).Waits key data servers := by
  induction replicas generalizing w with
  | nil => exact ⟨.refl w, nofun, fun _ waits => waits⟩
  | cons replica replicas ih =>
      obtain ⟨steady, pushed, kept⟩ := @ih (w.push key data replica)
      have here : (w.push key data replica).Waits key data [replica.chunkserverId] := by
        intro server member
        rw [List.mem_singleton.mp member]
        unfold push
        simp only [Function.update_self]
        exact Chunkserver.DataBuffer.entryOf_put
      have before : ∀ servers, w.Waits key data servers →
          (w.push key data replica).Waits key data servers := by
        intro servers waits server member
        by_cases same : server = replica.chunkserverId
        · exact here server (List.mem_singleton.mpr same)
        · unfold push
          simp only [Function.update_of_ne same]
          exact waits server member
      refine ⟨push_steady replica |>.trans steady, fun server member => ?_,
        fun servers waits => kept servers (before servers waits)⟩
      rcases List.mem_cons.mp member with rfl | later
      · exact kept _ here _ (List.mem_singleton.mpr rfl)
      · exact pushed server later

theorem chunkInfo_located {index : Nat} {entry : Nat × ChunkInfo}
    (found : w.chunkInfo e index = some entry) : entry.1 = index ∧ w.Located e index entry.2 := by
  obtain ⟨handle, here, found⟩ := Option.bind_eq_some_iff.mp found
  obtain ⟨m, known, rfl⟩ := Option.map_eq_some_iff.mp found
  exact ⟨rfl, here, m, known, le_rfl, rfl⟩

theorem findLocation_located {index : Nat} (whole : Whole w file) (small : file.length + 3 < 2 ^ 64) :
    (w.findLocation e e.path index 4).1 = .ok ∧
      (∀ entry ∈ (w.findLocation e e.path index 4).2, w.Located e entry.1 entry.2) ∧
      (index < file.length → ∃ entry ∈ (w.findLocation e e.path index 4).2, entry.1 = index) := by
  unfold findLocation
  rw [if_neg (not_not.mpr rfl)]
  refine ⟨rfl, fun entry member => ?_, fun inside => ?_⟩
  · obtain ⟨other, -, found⟩ := List.mem_filterMap.mp member
    obtain ⟨rfl, located⟩ := chunkInfo_located found
    exact located
  · obtain ⟨handle, m, here, copied⟩ := whole.found inside
    refine ⟨(index, { handle, version := m.version, replicas := m.locations.keys.map e.replica }),
      List.mem_filterMap.mpr ⟨index, List.mem_filter.mpr ⟨?_, ?_⟩, ?_⟩, rfl⟩
    · exact List.mem_range.mpr (whole.length ▸ inside)
    · have wide : u64 (index + max 1 4) = index + 4 := u64_of_lt (by omega)
      rw [wide]
      simp
    · unfold chunkInfo
      rw [here, Option.bind_some, copied.known]
      rfl

theorem read_copied {server : ServerId} {version offset length : Nat}
    (copied : w.Copied handle m data) (member : server ∈ m.locations.keys)
    (old : version ≤ m.version) (short : offset + length < 2 ^ 64) :
    w.read server handle version offset length =
      if data.length < offset then (.outOfRange, []) else (.ok, (data.drop offset).take length) := by
  obtain ⟨entry, found, current, is⟩ := copied.copies server member
  unfold read
  rw [found]
  dsimp only
  rw [if_neg (by omega), is]
  split
  · rfl
  · rename_i inside
    have inside := Nat.le_of_not_lt inside
    refine Prod.ext rfl (List.take_eq_take_iff.mpr ?_)
    rw [u64_of_lt short, List.length_drop]
    omega

theorem getChunkLength_copied {server : ServerId} (copied : w.Copied handle m data)
    (member : server ∈ m.locations.keys) :
    w.getChunkLength server handle = (.ok, data.length) := by
  obtain ⟨entry, found, -, is⟩ := copied.copies server member
  unfold getChunkLength
  rw [found, ← is]

end

end World

end Gfs.Client
