import Gfs.Cluster.Round

/-!
# Deletions on the master's word

A deletion is decided on a report that may be old when the decision is made, and the decision may be
old when it is carried out. What is still true then: a version below the table's stays below it, and
a chunk that the table has lost has no references and never gets one.
-/

namespace Gfs.Cluster.Deletion
open Chunkserver Master Lib.Transition

/-- A copy is removed only if no file refers to the chunk, or its version is below the master's, or
its chunkserver had reported it as corrupt. -/
def Sound : Event → Prop
  | .removed _ stored chunk refs corrupt =>
      refs = [] ∨ (∃ version, chunk = some version ∧ stored < version) ∨ corrupt = true
  | _ => True

/-- When a copy is removed on account of its version, it still has the version that was reported. -/
def Allowed (s : Cluster) : Action → Prop
  | .obey server => ∀ a ∈ s.senders server, ∀ answer ∈ a.removing?,
      answer.beat.corrupt = true ∨ s.chunk.isNone = true ∨
        ∀ entry ∈ (s.replica server).entry, answer.beat.version = some entry.version
  | _ => True

/-! ## The chunk and its references -/

structure Placed (s : Core) : Prop where
  allocated : ∀ m, s.chunk = some m → s.allocated = true
  gone : s.chunk = none → s.refs = []
  creating : ∀ c, s.creating = some c → s.refs = [] ∧ ∃ m, s.chunk = some m ∧ m.pending = true

section
variable {cfg : Config} {s : Cluster} {action : Action} {core : Core}

theorem Placed.update {m m' : ChunkMeta} (placed : Placed s.toCore) (old : s.chunk = some m)
    (new : core.chunk = some m') (allocated : core.allocated = s.allocated)
    (creating : core.creating = s.creating) (pending : m'.pending = m.pending)
    (refs : s.refs = [] → core.refs = []) : Placed core := by
  constructor
  · intro _ _
    rw [allocated]
    exact placed.allocated m old
  · intro gone
    simp [new] at gone
  · intro c creates
    obtain ⟨empty, m₂, same, isPending⟩ := placed.creating c (creating ▸ creates)
    obtain rfl : m = m₂ := Option.some.inj (old.symm.trans same)
    exact ⟨refs empty, m', new, pending.trans isPending⟩

theorem Placed.still (placed : Placed s.toCore) (chunk : core.chunk = s.chunk)
    (allocated : core.allocated = s.allocated) (creating : core.creating = s.creating)
    (refs : core.refs = s.refs) : Placed core := by
  obtain ⟨first, second, third⟩ := placed
  constructor <;> simpa only [chunk, allocated, creating, refs]

theorem Placed.map {f : ChunkMeta → ChunkMeta} (placed : Placed s.toCore)
    (chunk : core.chunk = s.chunk.map f) (pending : ∀ m, (f m).pending = m.pending)
    (allocated : core.allocated = s.allocated) (creating : core.creating = s.creating)
    (refs : s.refs = [] → core.refs = []) : Placed core := by
  obtain none | ⟨m, some⟩ := Option.eq_none_or_eq_some s.chunk
  · have none' : core.chunk = Option.none := by rw [chunk, none]; rfl
    constructor
    · simp [none']
    · exact fun _ => refs (placed.gone none)
    · intro c creates
      obtain ⟨_, m, found, _⟩ := placed.creating c (creating ▸ creates)
      simp [none] at found
  · exact placed.update some (by rw [chunk, some]; rfl) allocated creating (pending m) refs

theorem Placed.move (placed : Placed s.toCore) (moves : Moves cfg s action core) : Placed core := by
  cases moves with
  | create fresh =>
      have empty : s.refs = [] := by
        obtain none | ⟨m, some⟩ := Option.eq_none_or_eq_some s.chunk
        · exact placed.gone none
        · simp [placed.allocated m some] at fresh
      exact ⟨fun _ _ => rfl, nofun, fun _ _ => ⟨empty, _, rfl, rfl⟩⟩
  | createFailed creates => exact ⟨nofun, fun _ => (placed.creating _ creates).1, nofun⟩
  | created _ chunk => exact ⟨fun _ _ => placed.allocated _ chunk, nofun, nofun⟩
  | dropChunk chunk notPending unused =>
      refine ⟨nofun, fun _ => unused, fun c creates => ?_⟩
      obtain ⟨_, m, found, pending⟩ := placed.creating c creates
      obtain rfl := Option.some.inj (chunk.symm.trans found)
      simp [pending] at notPending
  | heartBeat _ chunk follows => exact placed.update chunk rfl rfl rfl follows.pending id
  | heartBeatExtend _ chunk follows => exact placed.update chunk rfl rfl rfl follows.pending id
  | removeFile => exact placed.map rfl (fun _ => rfl) rfl rfl (by simp +contextual)
  | clear => exact placed.map rfl (fun _ => rfl) rfl rfl id
  | snapshotFinish chunk =>
      exact placed.map chunk (fun _ => rfl) rfl rfl (by simp +contextual [copiedRefs])
  | snapshotReset chunk => exact placed.update chunk rfl rfl rfl rfl (by simp +contextual [copiedRefs])
  | sweep chunk => exact placed.update chunk rfl rfl rfl rfl id
  | copyOnWrite chunk => exact placed.update chunk rfl rfl rfl rfl (by simp +contextual)
  | expire chunk => exact placed.update chunk rfl rfl rfl rfl id
  | prepare _ _ chunk prepared =>
      obtain ⟨rfl, _⟩ := ChunkMeta.prepareLocked_eq prepared
      exact placed.update chunk rfl rfl rfl rfl id
  | failRound _ _ chunk => exact placed.update chunk rfl rfl rfl rfl id
  | commit _ _ chunk => exact placed.update chunk rfl rfl rfl rfl id
  | revoke chunk => exact placed.update chunk rfl rfl rfl rfl id
  | markRevoked chunk => exact placed.update chunk rfl rfl rfl rfl id
  | endRevoke _ chunk => exact placed.update chunk rfl rfl rfl rfl id
  | _ => exact placed.still rfl rfl rfl rfl

/-! ## Reports and verdicts -/

def Honest (s : Core) (b : Beat) : Prop :=
  (b.version.isSome = true → s.allocated = true) ∧ (b.corrupt = true → b.server ∈ s.corruptReports)

/-- Why the master may ask for a deletion, in terms that stay true. -/
def Justified (s : Core) (b : Beat) : Prop :=
  (s.allocated = true ∧ s.chunk = none) ∨
    (∃ m version, s.chunk = some m ∧ b.version = some version ∧ version < m.version) ∨
    b.server ∈ s.corruptReports

structure Decided (s : Core) (a : BeatAnswer) : Prop where
  honest : Honest s a.beat
  delete : a.delete = true → Justified s a.beat

/-- What `SendHeartbeat` of a chunkserver has found out or been told. -/
structure Proper (s : Core) (server : ServerId) (sender : Sender) : Prop where
  version : sender.version.isSome = true → s.allocated = true
  sent : ∀ b, sender = .sent b → b.server = server
  answer : ∀ a ∈ sender.answer?, a.beat.server = server ∧ Decided s a ∧
    (sender.removing?.isSome = true → a.delete = true)

structure Reported (s : Core) : Prop where
  senders : ∀ server sender, s.senders server = some sender → Proper s server sender
  beats : ∀ b ∈ s.beats, Honest s b
  handling : ∀ b time, (b, time) ∈ s.handling → Honest s b
  answers : ∀ a ∈ s.beatAnswers, Decided s a

theorem Moves.corruptReports_subset (moves : Moves cfg s action core) :
    ∀ server ∈ s.corruptReports, server ∈ core.corruptReports := by
  cases moves with
  | sendBeat =>
      intro server member
      dsimp only
      split
      · exact List.mem_append_left _ member
      · exact member
  | _ => exact fun _ => id

theorem Honest.move {b : Beat} (honest : Honest s.toCore b) (moves : Moves cfg s action core) :
    Honest core b :=
  ⟨fun known => moves.version_le.1 (honest.1 known),
    fun corrupt => Moves.corruptReports_subset moves _ (honest.2 corrupt)⟩

theorem Justified.move {b : Beat} (justified : Justified s.toCore b) (placed : Placed s.toCore)
    (moves : Moves cfg s action core) : Justified core b := by
  obtain ⟨allocated, later⟩ := moves.version_le
  rcases justified with ⟨born, gone⟩ | ⟨m, version, chunk, reported, below⟩ | corrupt
  · refine .inl ⟨allocated born, ?_⟩
    obtain gone' | ⟨m', chunk'⟩ := Option.eq_none_or_eq_some core.chunk
    · exact gone'
    · rcases later m' chunk' with ⟨m, found, _⟩ | ⟨unborn, _⟩
      · simp [gone] at found
      · simp [born] at unborn
  · have born := placed.allocated m chunk
    obtain gone' | ⟨m', chunk'⟩ := Option.eq_none_or_eq_some core.chunk
    · exact .inl ⟨allocated born, gone'⟩
    · rcases later m' chunk' with ⟨m₂, found, grows⟩ | ⟨unborn, _⟩
      · obtain rfl := Option.some.inj (chunk.symm.trans found)
        exact .inr (.inl ⟨m', version, chunk', reported, below.trans_le grows⟩)
      · simp [born] at unborn
  · exact .inr (.inr (Moves.corruptReports_subset moves _ corrupt))

theorem Decided.move {a : BeatAnswer} (decided : Decided s.toCore a) (placed : Placed s.toCore)
    (moves : Moves cfg s action core) : Decided core a :=
  ⟨decided.honest.move moves, fun delete => (decided.delete delete).move placed moves⟩

theorem Proper.move {server : ServerId} {sender : Sender} (proper : Proper s.toCore server sender)
    (placed : Placed s.toCore) (moves : Moves cfg s action core) : Proper core server sender where
  version known := moves.version_le.1 (proper.version known)
  sent := proper.sent
  answer a member := by
    obtain ⟨same, decided, delete⟩ := proper.answer a member
    exact ⟨same, decided.move placed moves, delete⟩

theorem Reported.update (reported : Reported s.toCore) (placed : Placed s.toCore)
    (moves : Moves cfg s action core)
    (senders : ∀ server sender, core.senders server = some sender →
      s.senders server = some sender ∨ Proper core server sender)
    (beats : ∀ b ∈ core.beats, b ∈ s.beats ∨ Honest core b)
    (handling : ∀ b time, (b, time) ∈ core.handling → (b, time) ∈ s.handling ∨ Honest core b)
    (answers : ∀ a ∈ core.beatAnswers, a ∈ s.beatAnswers ∨ Decided core a) : Reported core where
  senders server sender found := by
    rcases senders server sender found with old | new
    · exact (reported.senders server sender old).move placed moves
    · exact new
  beats b member := by
    rcases beats b member with old | new
    · exact (reported.beats b old).move moves
    · exact new
  handling b time member := by
    rcases handling b time member with old | new
    · exact (reported.handling b time old).move moves
    · exact new
  answers a member := by
    rcases answers a member with old | new
    · exact (reported.answers a old).move placed moves
    · exact new

theorem Reported.setSender {server : ServerId} {sender : Option Sender}
    (reported : Reported s.toCore) (placed : Placed s.toCore) (moves : Moves cfg s action core)
    (senders : core.senders = Function.update s.senders server sender)
    (proper : ∀ new, sender = some new → Proper core server new)
    (beats : ∀ b ∈ core.beats, b ∈ s.beats ∨ Honest core b) (handling : core.handling = s.handling)
    (answers : core.beatAnswers = s.beatAnswers) : Reported core := by
  refine reported.update placed moves ?_ beats (fun b time h => .inl (handling ▸ h))
    fun a h => .inl (answers ▸ h)
  intro other found h
  rw [senders] at h
  rcases setSender_cases h with old | ⟨rfl, new⟩
  · exact .inl old
  · exact .inr (proper found new)

theorem justified_of_delete {m : ChunkMeta} {b : Beat} {delete : Bool}
    (honest : Honest s.toCore b) (chunk : s.chunk = some m)
    (reason : delete = true → b.corrupt = true ∨ ∃ v, b.version = some v ∧ v < m.version)
    (h : delete = true) : Justified s.toCore b := by
  rcases reason h with corrupt | ⟨version, reported, below⟩
  · exact .inr (.inr (honest.2 corrupt))
  · exact .inr (.inl ⟨m, version, chunk, reported, below⟩)

theorem Reported.answering {server : ServerId} {sender : Option Sender}
    (reported : Reported s.toCore) (placed : Placed s.toCore) (moves : Moves cfg s action core)
    (senders : core.senders = Function.update s.senders server sender)
    (proper : ∀ new, sender = some new → Proper s.toCore server new)
    (beats : core.beats = s.beats) (handling : core.handling = s.handling)
    (answers : core.beatAnswers = s.beatAnswers) : Reported core :=
  reported.setSender placed moves senders (fun new is => (proper new is).move placed moves)
    (fun _ member => .inl (beats ▸ member)) handling answers

theorem Reported.decide {b : Beat} {time : TimePoint} {delete extended : Bool}
    (reported : Reported s.toCore) (placed : Placed s.toCore) (moves : Moves cfg s action core)
    (pending : (b, time) ∈ s.handling) (justified : delete = true → Justified s.toCore b)
    (senders : core.senders = s.senders) (beats : core.beats = s.beats)
    (handling : core.handling = s.handling.erase (b, time))
    (answers : core.beatAnswers = s.beatAnswers ++ [⟨b, time, delete, extended⟩]) :
    Reported core := by
  refine reported.update placed moves (fun _ _ h => .inl (senders ▸ h))
    (fun _ h => .inl (beats ▸ h))
    (fun _ _ h => .inl (List.mem_of_mem_erase (handling ▸ h))) fun a member => ?_
  rw [answers] at member
  rcases List.mem_append.mp member with old | new
  · exact .inl old
  · obtain rfl := List.mem_singleton.mp new
    have decided : Decided s.toCore ⟨b, time, delete, extended⟩ :=
      ⟨reported.handling b time pending, justified⟩
    exact .inr (decided.move placed moves)

theorem Reported.move (reported : Reported s.toCore) (placed : Placed s.toCore)
    (born : Born s.toCore) (moves : Moves cfg s action core) : Reported core := by
  have moves' := moves
  cases moves' with
  | @list server _ =>
      refine reported.answering placed moves rfl ?_ rfl rfl rfl
      rintro _ ⟨⟩
      refine ⟨fun known => ?_, nofun, nofun⟩
      obtain ⟨entry, found⟩ := Option.isSome_iff_exists.mp (Option.isSome_map ▸ known)
      exact (born.entry server entry found).1
  | ask sender =>
      refine reported.answering placed moves rfl ?_ rfl rfl rfl
      rintro _ ⟨⟩
      exact ⟨(reported.senders _ _ sender).version, nofun, nofun⟩
  | @sendBeat server version extend sender =>
      have proper := reported.senders _ _ sender
      refine reported.setSender placed moves rfl ?_ (fun b member => ?_) rfl rfl
      · rintro _ ⟨⟩
        exact ⟨nofun, fun b same => by cases same; rfl, nofun⟩
      · rcases List.mem_append.mp member with old | new
        · exact .inl old
        · obtain rfl := List.mem_singleton.mp new
          refine .inr ⟨proper.version, fun corrupt => ?_⟩
          dsimp only at corrupt ⊢
          rw [if_pos corrupt]
          exact List.mem_append_right _ (List.mem_singleton.mpr rfl)
  | receive pending sender =>
      refine reported.answering placed moves rfl ?_ rfl rfl rfl
      rintro _ ⟨⟩
      exact ⟨nofun, nofun, fun a same => by
        cases same
        exact ⟨rfl, reported.answers _ pending, nofun⟩⟩
  | giveUp => exact reported.answering placed moves rfl nofun rfl rfl rfl
  | @obeyRevoke server a sender delete =>
      have proper := reported.senders _ _ sender
      refine reported.answering placed moves rfl ?_ rfl rfl rfl
      rintro _ ⟨⟩
      obtain ⟨same, decided, _⟩ := proper.answer a rfl
      exact ⟨nofun, nofun, fun a' same' => by
        cases same'
        exact ⟨same, decided, fun _ => delete⟩⟩
  | obeySkip sender =>
      have proper := reported.senders _ _ sender
      refine reported.answering placed moves rfl ?_ rfl rfl rfl
      rintro _ ⟨⟩
      exact ⟨nofun, nofun, fun _ same => ⟨(proper.answer _ same).1, (proper.answer _ same).2.1, nofun⟩⟩
  | remove sender =>
      have proper := reported.senders _ _ sender
      refine reported.answering placed moves rfl ?_ rfl rfl rfl
      rintro _ ⟨⟩
      exact ⟨nofun, nofun, fun _ same => ⟨(proper.answer _ same).1, (proper.answer _ same).2.1, nofun⟩⟩
  | removeNothing sender =>
      have proper := reported.senders _ _ sender
      refine reported.answering placed moves rfl ?_ rfl rfl rfl
      rintro _ ⟨⟩
      exact ⟨nofun, nofun, fun _ same => ⟨(proper.answer _ same).1, (proper.answer _ same).2.1, nofun⟩⟩
  | extend => exact reported.answering placed moves rfl nofun rfl rfl rfl
  | obeyed => exact reported.answering placed moves rfl nofun rfl rfl rfl
  | touch pending =>
      refine reported.update placed moves (fun _ _ => .inl)
        (fun _ member => .inl (List.mem_of_mem_erase member)) (fun b time member => ?_)
        fun _ => .inl
      rcases List.mem_append.mp member with old | new
      · exact .inl old
      · cases List.mem_singleton.mp new
        exact .inr ((reported.beats _ pending).move moves)
  | heartBeatUnknown pending chunk =>
      refine reported.decide placed moves pending (fun h => ?_) rfl rfl rfl rfl
      have honest := reported.handling _ _ pending
      rcases Bool.or_eq_true_iff.mp h with known | corrupt
      · exact .inl ⟨honest.1 known, chunk⟩
      · exact .inr (.inr (honest.2 corrupt))
  | heartBeat pending chunk _ _ _ reason =>
      exact reported.decide placed moves pending
        (justified_of_delete (reported.handling _ _ pending) chunk reason) rfl rfl rfl rfl
  | heartBeatExtend pending chunk _ _ _ _ _ _ _ _ reason =>
      exact reported.decide placed moves pending
        (justified_of_delete (reported.handling _ _ pending) chunk reason) rfl rfl rfl rfl
  | _ =>
      exact reported.update placed moves (fun _ _ => .inl) (fun _ => .inl) (fun _ _ => .inl)
        fun _ => .inl

/-! ## Every deletion is sound -/

theorem history_cases (moves : Moves cfg s action core) :
    (∃ events, core.history = s.history ++ events ∧ ∀ e ∈ events, Sound e) ∨
      ∃ server a entry, action = .obey server ∧ s.senders server = some (.removing a) ∧
        (s.replica server).entry = some entry ∧
        core.history = s.history ++ [.removed server entry.version (s.chunk.map (·.version)) s.refs
          (server ∈ s.corruptReports)] := by
  cases moves with
  | @mutate _ _ events _ _ stored =>
      refine .inl ⟨events, rfl, fun e member => ?_⟩
      have isStored := stored e member
      cases e with
      | stored => trivial
      | _ => cases isStored
  | remove sender found => exact .inr ⟨_, _, _, rfl, sender, found, rfl⟩
  | snapshotFinish =>
      refine .inl ⟨_, rfl, fun e member => ?_⟩
      obtain rfl := List.mem_singleton.mp member
      trivial
  | snapshotReset =>
      refine .inl ⟨_, rfl, fun e member => ?_⟩
      obtain rfl := List.mem_singleton.mp member
      trivial
  | _ => exact .inl ⟨[], (List.append_nil _).symm, nofun⟩

theorem sound_removed {server : ServerId} {a : BeatAnswer} {entry : ChunkEntry}
    (placed : Placed s.toCore) (reported : Reported s.toCore) (allowed : Allowed s (.obey server))
    (sender : s.senders server = some (.removing a))
    (found : (s.replica server).entry = some entry) :
    Sound (.removed server entry.version (s.chunk.map (·.version)) s.refs
      (server ∈ s.corruptReports)) := by
  obtain ⟨same, decided, delete⟩ := (reported.senders _ _ sender).answer a rfl
  have justified := decided.delete (delete rfl)
  rcases justified with ⟨_, gone⟩ | ⟨m, version, chunk, claimed, below⟩ | corrupt
  · exact .inl (placed.gone gone)
  · rcases allowed _ sender a rfl with corrupt | gone | unchanged
    · exact .inr (.inr (decide_eq_true (same ▸ decided.honest.2 corrupt)))
    · exact .inl (placed.gone (Option.isNone_iff_eq_none.mp gone))
    · have stored : version = entry.version :=
        Option.some.inj (claimed.symm.trans (unchanged entry found))
      exact .inr (.inl ⟨m.version, by rw [chunk]; rfl, stored ▸ below⟩)
  · exact .inr (.inr (decide_eq_true (same ▸ corrupt)))

end

structure Inv (s : Cluster) : Prop where
  placed : Placed s.toCore
  reported : Reported s.toCore
  sound : ∀ e ∈ s.history, Sound e

theorem Initial.inv {s : Cluster} (initial : Initial s) : Inv s := by
  obtain ⟨now, registry, buffers, rfl⟩ := initial
  exact ⟨⟨nofun, fun _ => rfl, nofun⟩, ⟨nofun, nofun, nofun, nofun⟩, nofun⟩

theorem inv_step {cfg : Config} {s s' : Cluster} {action : Action} (born : Born s.toCore) (inv : Inv s)
    (allowed : Allowed s action) (taken : step cfg s action = some s') : Inv s' := by
  have moves := step_moves taken
  refine ⟨inv.placed.move moves, inv.reported.move inv.placed born moves, fun e member => ?_⟩
  rcases history_cases moves with ⟨events, history, sound⟩ | ⟨server, a, entry, rfl, sender, found, history⟩
  · rw [history] at member
    rcases List.mem_append.mp member with old | new
    · exact inv.sound e old
    · exact sound e new
  · rw [history] at member
    rcases List.mem_append.mp member with old | new
    · exact inv.sound e old
    · obtain rfl := List.mem_singleton.mp new
      exact sound_removed inv.placed inv.reported allowed sender found

theorem inv_of_reachable {cfg : Config} {s : Cluster}
    (reachable : Reachable (step cfg) Initial Allowed s) : Inv s := by
  refine reachable.invariant_over (fun _ => always) (fun _ => Initial.inv) ?_
  exact fun _ _ _ known inv allowed taken => inv_step known.1 inv allowed taken

theorem sound_of_allowed {cfg : Config} {s : Cluster}
    (reachable : Reachable (step cfg) Initial Allowed s) : ∀ e ∈ s.history, Sound e :=
  (inv_of_reachable reachable).sound

/-! ## Two runs -/

instance (s : Cluster) (action : Action) : Decidable (Allowed s action) :=
  match action with
  | .obey server =>
      inferInstanceAs (Decidable (∀ a ∈ s.senders server, ∀ answer ∈ a.removing?,
        answer.beat.corrupt = true ∨ s.chunk.isNone = true ∨
          ∀ entry ∈ (s.replica server).entry, answer.beat.version = some entry.version))
  | .tick _ | .push _ _ _ | .client _ _ | .deliver _ | .advance _ _ | .acceptForward _
  | .timeoutForward _ _ | .finish _ | .markCorrupt _ | .execute _ _ _ | .complete _ _ | .accept _
  | .timeout _ _ | .compose _ | .receive _ | .giveUp _ | .touch _ | .heartBeat _ _ | .sweep
  | .sweepLocations | .create _ _ _ _ | .endCreate | .dropChunk | .removeFile _ | .find _ _
  | .findStep _ _ | .regrant | .grantStep | .revoke _ _ | .endRevoke _ | .snapshot _
  | .snapshotFinish _ _ => isTrue trivial

/-- A heartbeat with the version that the chunk had before the round. -/
def early : Beat := ⟨1, serverP, some 1, false, false⟩

/-- A round of `GrantSerialized` overtakes the heartbeat of its primary. -/
def overtaken : List Action :=
  addChunk {} fileA [serverP] 0 ++ requestLease fileA ++ sendHeartbeat serverP ++ sendRound [] ++
    serve {} ⟨2, serverP, .grantLease 2 []⟩ ++ [.grantStep] ++ handle early 0 ++
    obeyAnswer ⟨early, 0, true, false⟩

/-- The primary deletes its copy at the version of the master, with a file that refers to it. -/
theorem sound_fails :
    ∃ s, Reachable (step {}) Initial (fun _ _ => True) s ∧
      s.history = [.removed serverP 2 (some 2) [(fileA, 0)] false] ∧ ¬ ∀ e ∈ s.history, Sound e := by
  obtain ⟨s, ran⟩ := Option.isSome_iff_exists.mp
    (by decide +kernel : (run (step {}) twoServers overtaken).isSome = true)
  have history : (run (step {}) twoServers overtaken).map (·.history) =
      some [.removed serverP 2 (some 2) [(fileA, 0)] false] := by decide +kernel
  simp only [ran, Option.map_some, Option.some.injEq] at history
  refine ⟨s, reachable_run_true initial_twoServers ran, history, fun sound => ?_⟩
  rw [history] at sound
  rcases sound _ (List.mem_singleton.mpr rfl) with unused | ⟨version, same, below⟩ | corrupt
  · cases unused
  · cases same
    omega
  · cases corrupt

def late : Beat := ⟨3, serverQ, some 1, false, false⟩

def missed : List Action :=
  addChunk {} fileA [serverP, serverQ] 0 ++ requestLease fileA ++
    sendRound [serverQ] ++ serve {} ⟨1, serverP, .grantLease 2 [serverQ]⟩ ++
    [.timeout 1 serverQ, .grantStep] ++
    sendRound [] ++ serve {} ⟨2, serverP, .grantLease 2 []⟩ ++ [.grantStep] ++
    sendHeartbeat serverQ ++ handle late 0 ++ obeyAnswer ⟨late, 0, true, false⟩

theorem sound_missed :
    ∃ s, run (step {}) twoServers missed = some s ∧
      s.history = [.removed serverQ 1 (some 2) [(fileA, 0)] false] ∧ ∀ e ∈ s.history, Sound e := by
  obtain ⟨s, ran⟩ := Option.isSome_iff_exists.mp
    (by decide +kernel : (run (step {}) twoServers missed).isSome = true)
  have history : (run (step {}) twoServers missed).map (·.history) =
      some [.removed serverQ 1 (some 2) [(fileA, 0)] false] := by decide +kernel
  simp only [ran, Option.map_some, Option.some.injEq] at history
  exact ⟨s, ran, history,
    sound_of_allowed (reachable_run initial_twoServers (by decide +kernel) ran)⟩

end Gfs.Cluster.Deletion
