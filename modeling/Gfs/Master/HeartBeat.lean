import Gfs.Master.MasterState

/-!
# The sections of `Master::HeartBeat` and `Master::SweepDead`

What a heartbeat does to the whole chunk table, report by report, with the records that it logs. It
leaves the references alone, and a version that it adopts is in the log.
-/

namespace Gfs.Master
open Lib.Maps

namespace ChunkTable

def heldBy (chunks : ChunkTable) (server : ServerId) : List Handle :=
  (chunks.toList.filter fun entry => entry.2.locations.contains server).map (·.1)

end ChunkTable

structure HeartBeatRequest where
  chunks : List (Handle × Nat) := []
  corrupt : List Handle := []
  leaseExtensionRequests : List Handle := []

/-- What the section of `HeartBeat` has done so far. -/
structure Heard where
  chunks : ChunkTable
  deleteHandles : List Handle := []
  reported : List Handle := []
  regrants : List Handle := []
  extended : List Handle := []
  records : List LogRecord := []

namespace Heard

def settle (heard : Heard) (handle : Handle) (verdict : ChunkMeta.Verdict) : Heard :=
  { heard with
    chunks := heard.chunks.insert handle verdict.chunk
    deleteHandles := heard.deleteHandles ++ if verdict.delete then [handle] else []
    reported := heard.reported ++ if verdict.reported then [handle] else []
    regrants := heard.regrants ++ if verdict.regrant then [handle] else []
    records := heard.records ++ match verdict.bump with
      | some version => [.bumpVersion handle version]
      | none => [] }

/-- The loop body over `req.chunks()`. -/
def report (cfg : Config) (t : TimePoint) (server : ServerId) (heard : Heard)
    (entry : Handle × Nat) : Heard :=
  match heard.chunks[entry.1]? with
  | none => { heard with deleteHandles := heard.deleteHandles ++ [entry.1] }
  | some m => heard.settle entry.1 (m.report cfg t server entry.2)

/-- The loop body over `known`. -/
def miss (cfg : Config) (t : TimePoint) (server : ServerId) (heard : Heard) (handle : Handle) :
    Heard :=
  if handle ∈ heard.reported then heard
  else
    match heard.chunks[handle]? with
    | none => heard
    | some m => heard.settle handle (m.unreported cfg t server)

/-- The loop body over `req.corrupt()`. -/
def corrupt (cfg : Config) (t : TimePoint) (server : ServerId) (heard : Heard) (handle : Handle) :
    Heard :=
  match heard.chunks[handle]? with
  | none => { heard with deleteHandles := heard.deleteHandles ++ [handle] }
  | some m => heard.settle handle (m.reportCorrupt cfg t server)

/-- The loop body over `req.lease_extension_requests()`. -/
def extend (cfg : Config) (t : TimePoint) (server : ServerId) (heard : Heard) (handle : Handle) :
    Heard :=
  match heard.chunks[handle]?.bind (·.extendLocked cfg server t) with
  | none => heard
  | some m => { heard with
      chunks := heard.chunks.insert handle m
      extended := heard.extended ++ [handle] }

end Heard

namespace ChunkTable

/-- The section of `HeartBeat` under the state mutex. -/
def heartBeat (cfg : Config) (t : TimePoint) (server : ServerId) (req : HeartBeatRequest)
    (chunks : ChunkTable) : Heard :=
  let known := chunks.heldBy server
  let heard := req.chunks.foldl (Heard.report cfg t server) { chunks }
  let heard := known.foldl (Heard.miss cfg t server) heard
  let heard := req.corrupt.foldl (Heard.corrupt cfg t server) heard
  req.leaseExtensionRequests.foldl (Heard.extend cfg t server) heard

/-- The inner loop body of `SweepDead`, with the regrants so far. -/
def sweepChunk (cfg : Config) (t : TimePoint) (server : ServerId) (swept : ChunkTable × List Handle)
    (handle : Handle) : ChunkTable × List Handle :=
  match swept.1[handle]? with
  | none => swept
  | some m =>
      (swept.1.insert handle (m.removeLocation server),
        swept.2 ++ if (m.removeLocation server).isValid cfg t then [handle] else [])

def sweepDead (cfg : Config) (t : TimePoint) (dead : List ServerId) (chunks : ChunkTable) :
    ChunkTable × List Handle :=
  dead.foldl (fun swept server => (swept.1.heldBy server).foldl (sweepChunk cfg t server) swept)
    (chunks, [])

end ChunkTable

/-! ## Versions and the records that raise them -/

def bumped (records : List LogRecord) (handle : Handle) (version : Nat) : Nat :=
  records.foldl (fun version record =>
    match record with
    | .bumpVersion handle' version' => if handle' = handle then max version version' else version
    | _ => version) version

theorem bumped_append {before after : List LogRecord} {handle : Handle} {version : Nat} :
    bumped (before ++ after) handle version = bumped after handle (bumped before handle version) :=
  List.foldl_append

/-- The tables have the same chunks and references, and the records raise the versions. -/
structure Tended (a b : ChunkTable) (records : List LogRecord) : Prop where
  bumps : ∀ record ∈ records, ∃ handle version, record = .bumpVersion handle version
  absent : ∀ handle : Handle, a[handle]? = none → b[handle]? = none
  present : ∀ (handle : Handle) m, a[handle]? = some m → ∃ m', b[handle]? = some m' ∧
    m'.refcount = m.refcount ∧ m'.pending = m.pending ∧
    m'.version = bumped records handle m.version

structure Quiet (m m' : ChunkMeta) : Prop where
  stays : m.lease = none → m'.lease = none
  revoked : ∀ l, m.lease = some l → l.revoked = true →
    m'.lease = none ∨ m'.lease = some l

/-- The chunk has no lease or a revoked one, which is valid at no time. -/
def ChunkMeta.Barred (m : ChunkMeta) : Prop := ∀ l, m.lease = some l → l.revoked = true

def AllQuiet (a b : ChunkTable) : Prop :=
  ∀ (handle : Handle) m m', a[handle]? = some m → b[handle]? = some m' → Quiet m m'

section
variable {a b c : ChunkTable} {records records' : List LogRecord} {handle : Handle}
  {m m' m'' : ChunkMeta}

theorem Tended.refl : Tended a a [] :=
  ⟨by simp, fun _ absent => absent, fun _ m found => ⟨m, found, rfl, rfl, rfl⟩⟩

theorem Tended.trans (first : Tended a b records) (second : Tended b c records') :
    Tended a c (records ++ records') := by
  refine ⟨fun record member => ?_, fun handle absent => ?_, fun handle m found => ?_⟩
  · rcases List.mem_append.mp member with early | late
    · exact first.bumps record early
    · exact second.bumps record late
  · exact second.absent handle (first.absent handle absent)
  · obtain ⟨m', found', refcount, pending, version⟩ := first.present handle m found
    obtain ⟨m'', found'', refcount', pending', version'⟩ := second.present handle m' found'
    refine ⟨m'', found'', refcount'.trans refcount, pending'.trans pending, ?_⟩
    rw [version', version, bumped_append]

theorem Tended.insert (found : a[handle]? = some m) (refcount : m'.refcount = m.refcount)
    (pending : m'.pending = m.pending) (version : m'.version = m.version) :
    Tended a (a.insert handle m') [] := by
  refine ⟨by simp, fun other absent => ?_, fun other n there => ?_⟩
  · rw [getElem?_insert, if_neg, absent]
    rintro rfl
    rw [found] at absent
    cases absent
  · rw [getElem?_insert]
    by_cases same : handle = other
    · subst same
      obtain rfl := Option.some.inj (found.symm.trans there)
      exact ⟨m', if_pos rfl, refcount, pending, version⟩
    · exact ⟨n, by rw [if_neg same, there], rfl, rfl, rfl⟩

theorem Tended.bump (found : a[handle]? = some m) (refcount : m'.refcount = m.refcount)
    (pending : m'.pending = m.pending) {raised : Nat} (version : m'.version = max m.version raised) :
    Tended a (a.insert handle m') [.bumpVersion handle raised] := by
  refine ⟨by simp, fun other absent => ?_, fun other n there => ?_⟩
  · rw [getElem?_insert, if_neg, absent]
    rintro rfl
    rw [found] at absent
    cases absent
  · rw [getElem?_insert]
    by_cases same : handle = other
    · subst same
      obtain rfl := Option.some.inj (found.symm.trans there)
      exact ⟨m', if_pos rfl, refcount, pending, by simp [bumped, version]⟩
    · exact ⟨n, by rw [if_neg same, there], rfl, rfl, by simp [bumped, same]⟩

theorem Quiet.refl : Quiet m m := ⟨fun none => none, fun _ found _ => .inr found⟩

theorem Quiet.of_lease (same : m'.lease = m.lease) : Quiet m m' :=
  ⟨fun none => same.trans none, fun _ found _ => .inr (same.trans found)⟩

theorem Quiet.of_none (gone : m'.lease = none) : Quiet m m' :=
  ⟨fun _ => gone, fun _ _ _ => .inl gone⟩

theorem Quiet.trans (first : Quiet m m') (second : Quiet m' m'') : Quiet m m'' where
  stays none := second.stays (first.stays none)
  revoked l found revoked := by
    rcases first.revoked l found revoked with gone | same
    · exact .inl (second.stays gone)
    · exact second.revoked l same revoked

theorem Quiet.barred (quiet : Quiet m m') (barred : m.Barred) : m'.Barred := by
  intro l' lease'
  cases lease : m.lease with
  | none =>
      rw [quiet.stays lease] at lease'
      cases lease'
  | some l =>
      have revoked := barred l lease
      rcases quiet.revoked l lease revoked with gone | same
      · rw [gone] at lease'
        cases lease'
      · rw [← Option.some.inj (same.symm.trans lease')]
        exact revoked

theorem ChunkMeta.Barred.isValid (barred : m.Barred) {cfg : Config} {now : TimePoint} :
    m.isValid cfg now = false := by
  by_contra valid
  obtain ⟨l, lease, unrevoked, _⟩ := ChunkMeta.isValid_lease (by simpa using valid)
  rw [barred l lease] at unrevoked
  cases unrevoked

theorem AllQuiet.refl : AllQuiet a a := by
  intro handle m m' found found'
  rw [Option.some.inj (found.symm.trans found')]
  exact .refl

theorem AllQuiet.trans (tended : Tended a b records) (first : AllQuiet a b)
    (second : AllQuiet b c) : AllQuiet a c := by
  intro handle m m'' found found''
  obtain ⟨m', found', _⟩ := tended.present handle m found
  exact (first handle m m' found found').trans (second handle m' m'' found' found'')

theorem AllQuiet.insert (found : a[handle]? = some m) (quiet : Quiet m m') :
    AllQuiet a (a.insert handle m') := by
  intro other n n' there there'
  rw [getElem?_insert] at there'
  split at there'
  · rename_i same
    subst same
    obtain rfl := Option.some.inj (found.symm.trans there)
    obtain rfl := Option.some.inj there'
    exact quiet
  · rw [Option.some.inj (there.symm.trans there')]
    exact .refl

end

/-! ## Heartbeats -/

section
variable {cfg : Config} {t : TimePoint} {server : ServerId} {heard : Heard} {handle : Handle}
  {m : ChunkMeta}

/-- From the table and the records of the one to those of the other. -/
def Heard.Goes (heard heard' : Heard) : Prop :=
  ∃ records, heard'.records = heard.records ++ records ∧
    Tended heard.chunks heard'.chunks records ∧ AllQuiet heard.chunks heard'.chunks

theorem Heard.Goes.refl : Heard.Goes heard heard :=
  ⟨[], by simp, .refl, .refl⟩

theorem Heard.Goes.trans {heard' heard'' : Heard} (first : Goes heard heard')
    (second : Goes heard' heard'') : Goes heard heard'' := by
  obtain ⟨records, logged, tended, quiet⟩ := first
  obtain ⟨records', logged', tended', quiet'⟩ := second
  exact ⟨records ++ records', by rw [logged', logged, List.append_assoc],
    tended.trans tended', AllQuiet.trans tended quiet quiet'⟩

theorem Heard.Goes.foldl {ε : Type*} {f : Heard → ε → Heard} (step : ∀ heard e, Goes heard (f heard e))
    (entries : List ε) : Goes heard (entries.foldl f heard) := by
  induction entries generalizing heard with
  | nil => exact .refl
  | cons e entries ih => exact (step heard e).trans ih

/-- A verdict that leaves the references and the lease alone and logs a version that it adopts. -/
structure Sound (m : ChunkMeta) (verdict : ChunkMeta.Verdict) : Prop where
  refcount : verdict.chunk.refcount = m.refcount
  pending : verdict.chunk.pending = m.pending
  lease : verdict.chunk.lease = m.lease
  version : verdict.bump = none ∧ verdict.chunk.version = m.version ∨
    m.version < verdict.chunk.version ∧ verdict.bump = some verdict.chunk.version

theorem Heard.settle_goes {verdict : ChunkMeta.Verdict} (found : heard.chunks[handle]? = some m)
    (sound : Sound m verdict) : Goes heard (heard.settle handle verdict) := by
  refine ⟨_, rfl, ?_, AllQuiet.insert found (.of_lease sound.lease)⟩
  rcases sound.version with ⟨bump, same⟩ | ⟨newer, bump⟩
  · rw [bump]
    exact Tended.insert found sound.refcount sound.pending same
  · rw [bump]
    refine Tended.bump found sound.refcount sound.pending ?_
    exact (Nat.max_eq_right (Nat.le_of_lt newer)).symm

theorem report_sound {version : Nat} :
    Sound m (m.report cfg t server version) ∧
      ∀ raised, (m.report cfg t server version).bump = some raised →
        raised = version ∧ m.version < version := by
  have ⟨follows, lease⟩ : m.Follows (m.report cfg t server version).chunk ∧ _ :=
    ChunkMeta.report_follows
  suffices (m.report cfg t server version).bump = none ∧
      (m.report cfg t server version).chunk.version = m.version ∨
      m.version < version ∧ (m.report cfg t server version).chunk.version = version ∧
        (m.report cfg t server version).bump = some version by
    rcases this with ⟨bump, same⟩ | ⟨newer, adopted, bump⟩
    · exact ⟨⟨follows.refcount, follows.pending, lease, .inl ⟨bump, same⟩⟩, by simp [bump]⟩
    · refine ⟨⟨follows.refcount, follows.pending, lease, .inr ⟨?_, ?_⟩⟩, ?_⟩
      · rw [adopted]
        exact newer
      · rw [adopted]
        exact bump
      · intro raised logged
        exact ⟨Option.some.inj (logged.symm.trans bump), newer⟩
  unfold ChunkMeta.report
  by_cases granting : m.granting = true
  · rw [if_pos granting]
    split <;> exact .inl ⟨rfl, rfl⟩
  · rw [if_neg granting]
    by_cases stale : version < m.version
    · rw [if_pos stale]
      exact .inl ⟨rfl, rfl⟩
    · rw [if_neg stale]
      by_cases newer : m.version < version
      · refine .inr ⟨newer, ?_, if_pos newer⟩
        dsimp only
        rw [if_pos newer]
        rfl
      · refine .inl ⟨if_neg newer, ?_⟩
        dsimp only
        rw [if_neg newer]
        rfl

theorem unreported_sound :
    Sound m (m.unreported cfg t server) ∧ (m.unreported cfg t server).bump = none := by
  unfold ChunkMeta.unreported
  split
  · split
    · exact ⟨⟨rfl, rfl, rfl, .inl ⟨rfl, rfl⟩⟩, rfl⟩
    · exact ⟨⟨rfl, rfl, rfl, .inl ⟨rfl, rfl⟩⟩, rfl⟩
  · exact ⟨⟨rfl, rfl, rfl, .inl ⟨rfl, rfl⟩⟩, rfl⟩

theorem Heard.report_goes (entry : Handle × Nat) : Goes heard (heard.report cfg t server entry) := by
  unfold report
  split
  · exact ⟨[], by simp, .refl, .refl⟩
  · rename_i m found
    exact settle_goes found report_sound.1

theorem Heard.miss_goes (handle : Handle) : Goes heard (heard.miss cfg t server handle) := by
  unfold miss
  split
  · exact .refl
  · split
    · exact .refl
    · rename_i m found
      exact settle_goes found unreported_sound.1

theorem Heard.corrupt_goes (handle : Handle) : Goes heard (heard.corrupt cfg t server handle) := by
  unfold corrupt
  split
  · exact ⟨[], by simp, .refl, .refl⟩
  · rename_i m found
    exact settle_goes found ⟨rfl, rfl, rfl, .inl ⟨rfl, rfl⟩⟩

theorem Heard.extend_goes (handle : Handle) : Goes heard (heard.extend cfg t server handle) := by
  unfold extend
  split
  · exact .refl
  · rename_i m' extended
    obtain ⟨m, found, extended⟩ := Option.bind_eq_some_iff.mp extended
    obtain ⟨l, lease, valid, primary, rfl⟩ := ChunkMeta.extendLocked_eq extended
    refine ⟨[], by simp, Tended.insert found rfl rfl rfl, AllQuiet.insert found ⟨?_, ?_⟩⟩
    · rw [lease]
      exact nofun
    · intro l' lease' revoked
      obtain ⟨l'', lease'', unrevoked, _⟩ := ChunkMeta.isValid_lease valid
      obtain rfl : l'' = l' := Option.some.inj (lease''.symm.trans lease')
      rw [revoked] at unrevoked
      cases unrevoked

theorem heartBeat_goes (req : HeartBeatRequest) (chunks : ChunkTable) :
    Heard.Goes { chunks } (chunks.heartBeat cfg t server req) :=
  (Heard.Goes.foldl (fun _ => Heard.report_goes) req.chunks).trans <|
    (Heard.Goes.foldl (fun _ => Heard.miss_goes) _).trans <|
      (Heard.Goes.foldl (fun _ => Heard.corrupt_goes) req.corrupt).trans <|
        Heard.Goes.foldl (fun _ => Heard.extend_goes) req.leaseExtensionRequests

theorem le_bumped {records : List LogRecord} {version : Nat} :
    version ≤ bumped records handle version := by
  induction records generalizing version with
  | nil => exact Nat.le_refl _
  | cons record records ih =>
      refine Nat.le_trans ?_ ih
      dsimp only
      split
      · split
        · exact Nat.le_max_left _ _
        · exact Nat.le_refl _
      · exact Nat.le_refl _

theorem reports_records (entries : List (Handle × Nat)) {version : Nat}
    (logged : .bumpVersion handle version ∈
      (entries.foldl (Heard.report cfg t server) heard).records) :
    .bumpVersion handle version ∈ heard.records ∨ (handle, version) ∈ entries ∧
      ∀ m, heard.chunks[handle]? = some m → m.version < version := by
  induction entries generalizing heard with
  | nil => exact .inl logged
  | cons entry entries ih =>
      rcases ih logged with earlier | ⟨listed, above⟩
      · rw [Heard.report] at earlier
        split at earlier
        · exact .inl earlier
        · rename_i m found
          rcases List.mem_append.mp earlier with before | now
          · exact .inl before
          · right
            split at now
            · rename_i raised bump
              obtain ⟨rfl, newer⟩ := report_sound.2 raised bump
              cases List.mem_singleton.mp now
              refine ⟨List.mem_cons_self, fun m' found' => ?_⟩
              obtain rfl := Option.some.inj (found.symm.trans found')
              exact newer
            · cases now
      · refine .inr ⟨List.mem_cons_of_mem _ listed, fun m found => ?_⟩
        obtain ⟨records, _, tended, _⟩ : Heard.Goes heard (heard.report cfg t server entry) :=
          Heard.report_goes entry
        obtain ⟨m', found', _, _, version'⟩ := tended.present handle m found
        exact Nat.lt_of_le_of_lt (version' ▸ le_bumped) (above m' found')

theorem foldl_records {ε : Type*} {f : Heard → ε → Heard}
    (step : ∀ heard e, (f heard e).records = heard.records) (entries : List ε) (heard : Heard) :
    (entries.foldl f heard).records = heard.records := by
  induction entries generalizing heard with
  | nil => rfl
  | cons e entries ih => exact (ih (f heard e)).trans (step heard e)

theorem heartBeat_records (req : HeartBeatRequest) (chunks : ChunkTable) {version : Nat}
    (logged : .bumpVersion handle version ∈ (chunks.heartBeat cfg t server req).records) :
    (handle, version) ∈ req.chunks ∧ ∀ m, chunks[handle]? = some m → m.version < version := by
  have extended := foldl_records (f := Heard.extend cfg t server) fun heard handle => by
    unfold Heard.extend
    split <;> rfl
  have corrupted := foldl_records (f := Heard.corrupt cfg t server) fun heard handle => by
    unfold Heard.corrupt
    split
    · rfl
    · simp [Heard.settle, ChunkMeta.reportCorrupt]
  have missed := foldl_records (f := Heard.miss cfg t server) fun heard handle => by
    unfold Heard.miss
    split
    · rfl
    · split
      · rfl
      · simp [Heard.settle, unreported_sound.2]
  rw [ChunkTable.heartBeat, extended, corrupted, missed] at logged
  exact (reports_records req.chunks logged).resolve_left nofun

/-! ## Sweeps -/

theorem sweepDead_tended (dead : List ServerId) (chunks : ChunkTable) :
    Tended chunks (chunks.sweepDead cfg t dead).1 [] ∧
      AllQuiet chunks (chunks.sweepDead cfg t dead).1 := by
  have one : ∀ (handles : List Handle) server (swept : ChunkTable × List Handle),
      Tended swept.1 (handles.foldl (ChunkTable.sweepChunk cfg t server) swept).1 [] ∧
        AllQuiet swept.1 (handles.foldl (ChunkTable.sweepChunk cfg t server) swept).1 := by
    intro handles server
    induction handles with
    | nil => exact fun _ => ⟨.refl, .refl⟩
    | cons handle handles ih =>
        intro swept
        have step : Tended swept.1 (ChunkTable.sweepChunk cfg t server swept handle).1 [] ∧
            AllQuiet swept.1 (ChunkTable.sweepChunk cfg t server swept handle).1 := by
          unfold ChunkTable.sweepChunk
          split
          · exact ⟨.refl, .refl⟩
          · rename_i m found
            exact ⟨Tended.insert found rfl rfl rfl, AllQuiet.insert found (.of_lease rfl)⟩
        obtain ⟨tended, quiet⟩ := ih (ChunkTable.sweepChunk cfg t server swept handle)
        exact ⟨step.1.trans tended, AllQuiet.trans step.1 step.2 quiet⟩
  have all : ∀ (dead : List ServerId) (swept : ChunkTable × List Handle),
      Tended swept.1 (dead.foldl (fun swept server =>
        (swept.1.heldBy server).foldl (ChunkTable.sweepChunk cfg t server) swept) swept).1 [] ∧
      AllQuiet swept.1 (dead.foldl (fun swept server =>
        (swept.1.heldBy server).foldl (ChunkTable.sweepChunk cfg t server) swept) swept).1 := by
    intro dead
    induction dead with
    | nil => exact fun _ => ⟨.refl, .refl⟩
    | cons server dead ih =>
        intro swept
        have step := one (swept.1.heldBy server) server swept
        obtain ⟨tended, quiet⟩ :=
          ih ((swept.1.heldBy server).foldl (ChunkTable.sweepChunk cfg t server) swept)
        exact ⟨step.1.trans tended, AllQuiet.trans step.1 step.2 quiet⟩
  exact all dead (chunks, [])

end

end Gfs.Master
