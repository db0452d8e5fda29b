import Gfs.Cluster.Round
import Mathlib.Data.List.Nodup

/-!
# Lease answers and grants

What `FindLeaseHolder` answers after `Grant` is the grant itself. An answer from the table names the
version of the chunk and the primary of the lease, which change apart from each other: a heartbeat
raises the one, and a round that fails leaves the other behind.
-/

namespace Gfs.Cluster.Granted
open Chunkserver Master Lib.Transition

/-- A cluster with the versions that the chunkservers have acknowledged a `GrantLease` for, and the
answers of `FindLeaseHolder` with what had been acknowledged before each. -/
structure Noted where
  cluster : Cluster
  grants : List (ServerId × Nat) := []
  answers : List (Known × List (ServerId × Nat)) := []

/-- The `GrantLease` that the step answers with `OK`. -/
def acknowledged : Action → List (ServerId × Nat)
  | .complete server (.grant version _ _ _) => [(server, version)]
  | _ => []

def Noted.step (cfg : Config) (w : Noted) (a : Action) : Option Noted :=
  (Cluster.step cfg w.cluster a).map fun s =>
    { cluster := s
      grants := w.grants ++ acknowledged a
      answers := w.answers ++ (s.known.drop w.cluster.known.length).map (·, w.grants) }

def Noted.Initial (w : Noted) : Prop := ∃ s, Cluster.Initial s ∧ w = { cluster := s }

/-- The primary has acknowledged just this version and none above. -/
def Real (k : Known) (grants : List (ServerId × Nat)) : Prop :=
  (k.primary, k.version) ∈ grants ∧ ∀ version, (k.primary, version) ∈ grants → version ≤ k.version

/-- A heartbeat raises the version under a lease only to one that the primary has acknowledged; no
request lowers a stored version; and an answer comes from the table only while the primary stores the
chunk at no version above the table's. -/
def Allowed (cfg : Config) (w : Noted) : Action → Prop
  | .heartBeat b _ => ∀ m ∈ w.cluster.chunk, m.granting = false → ∀ l ∈ m.lease,
      l.revoked = false → ∀ version ∈ b.version, m.version < version →
        (l.primary, version) ∈ w.grants
  | .execute _ q _ => ∀ half ∈ q.half cfg, ∀ entry ∈ (w.cluster.replica q.target).entry,
      entry.version ≤ half.version
  | .findStep f _ => f.phase = .decide → ∀ m ∈ w.cluster.chunk,
      m.isValid cfg w.cluster.now = true → ∀ l ∈ m.lease,
        ∃ entry ∈ (w.cluster.replica l.primary).entry, entry.version ≤ m.version
  | _ => True

/-! ## The chunkservers that have nothing yet -/

def Request.creates (q : Request) : Bool :=
  match q.body with
  | .createChunk _ => true
  | _ => false

/-- The chunkservers that a `CreateChunk` is on its way to. -/
def awaiting (s : Core) : List ServerId := (s.requests.filter Request.creates).map (·.target)

structure Begun (cfg : Config) (s : Core) (grants : List (ServerId × Nat)) : Prop where
  attempt : ∀ attempt, s.attempt? = some attempt → s.allocated = true
  request : ∀ q ∈ s.requests, q.half cfg ≠ none → s.allocated = true
  half : ∀ server, ∀ half ∈ (s.replica server).halves, s.allocated = true
  grant : ∀ pair ∈ grants, s.allocated = true

/-- A chunkserver whose `CreateChunk` is on its way has not been granted anything. -/
structure Untouched (s : Core) (grants : List (ServerId × Nat)) : Prop where
  distinct : (awaiting s).Nodup
  entry : ∀ q ∈ s.requests, Request.creates q = true → (s.replica q.target).entry = none
  half : ∀ q ∈ s.requests, Request.creates q = true → (s.replica q.target).halves = []
  grant : ∀ q ∈ s.requests, Request.creates q = true → ∀ version, (q.target, version) ∉ grants

section
variable {cfg : Config} {s : Cluster} {action : Action} {core : Core}
  {grants : List (ServerId × Nat)}

theorem creates_eq {q : Request} :
    Request.creates q = true ↔ ∃ version, q.body = .createChunk version := by
  unfold Request.creates
  split
  · rename_i version body
    exact ⟨fun _ => ⟨version, body⟩, fun _ => rfl⟩
  · rename_i other
    exact ⟨nofun, fun ⟨version, body⟩ => absurd body (other version)⟩

theorem grants_cases {s' : Cluster} (taken : Cluster.step cfg s action = some s')
    {server : ServerId} {version : Nat}
    (member : (server, version) ∈ grants ++ acknowledged action) :
    (server, version) ∈ grants ∨ ∃ half ∈ (s.replica server).halves, half.version = version := by
  rcases List.mem_append.mp member with old | new
  · exact .inl old
  · cases action with
    | complete target half =>
        cases half with
        | grant version' lease secondaries number =>
            cases List.mem_singleton.mp new
            have taken : s.complete cfg server _ = some s' := taken
            unfold Cluster.complete at taken
            split at taken
            · rename_i pending
              exact .inr ⟨_, pending, rfl⟩
            · cases taken
        | update => cases new
    | _ => cases new

theorem Begun.move {s' : Cluster} (begun : Begun cfg s.toCore grants) (born : Born s.toCore)
    (moves : Moves cfg s action core) (taken : Cluster.step cfg s action = some s') :
    Begun cfg core (grants ++ acknowledged action) := by
  have on : s.allocated = true → core.allocated = true := moves.version_le.1
  have attempt : ∀ attempt, core.attempt? = some attempt → core.allocated = true := by
    intro attempt tries
    rcases moves.attempt_cases tries with old | ⟨_, m, _, _, _, chunk, _⟩
    · exact on (begun.attempt attempt old)
    · exact on (born.chunk m chunk)
  refine ⟨attempt, fun q member versioned => ?_, fun server half member => ?_, fun pair member => ?_⟩
  · rcases moves.request_cases member with old | ⟨_, sent⟩
    · exact on (begun.request q old versioned)
    · cases sent with
      | bodies waiting _ =>
          obtain ⟨g, grant, phase⟩ := waiting
          exact attempt _ (by simp [Core.attempt?, grant, phase, Phase.attempt?]; rfl)
      | revokeLease => simp [Request.half] at versioned
      | createChunk => simp [Request.half] at versioned
  · rcases moves.half_cases member with old | ⟨q, pending, _, of, _⟩
    · exact on (begun.half server half old)
    · exact on (begun.request q pending (by simp [of]))
  · obtain ⟨server, version⟩ := pair
    rcases grants_cases taken member with old | ⟨half, pending, _⟩
    · exact on (begun.grant _ old)
    · exact on (begun.half server half pending)

theorem execute_requests {s' : Cluster} {io : Io} {q : Request} {data : Bytes}
    (taken : s.execute cfg io q data = some s') :
    s'.requests = s.requests.erase q := by
  unfold Cluster.execute at taken
  split at taken
  · have versions : ∀ half, (executeVersion io { s with requests := s.requests.erase q } q half).requests =
        s.requests.erase q := by
      intro half
      unfold executeVersion
      split
      · rfl
      · rfl
    dsimp only at taken
    split at taken
    · cases taken
      exact versions _
    · cases taken
      exact versions _
    · cases taken
      rfl
    · split at taken
      · cases taken
        rfl
      · cases taken
        rfl
  · cases taken

theorem awaiting_cases (moves : Moves cfg s action core) :
    (awaiting core).Sublist (awaiting s.toCore) ∨
      s.allocated = false ∧ ∃ targets : List ServerId, targets.Nodup ∧
        awaiting core = awaiting s.toCore ++ targets := by
  have sent : ∀ {bodies : List (ServerId × Body)}, core.requests =
      s.requests ++ bodies.map (fun pair => ⟨s.number, pair.1, pair.2⟩) →
      (∀ pair ∈ bodies, ∀ version, pair.2 ≠ .createChunk version) →
      (awaiting core).Sublist (awaiting s.toCore) := by
    intro bodies requests others
    have none : (bodies.map fun pair => (⟨s.number, pair.1, pair.2⟩ : Request)).filter
        Request.creates = [] := by
      refine List.filter_eq_nil_iff.mpr fun q member creates => ?_
      obtain ⟨pair, chosen, rfl⟩ := List.mem_map.mp member
      obtain ⟨version, body⟩ := creates_eq.mp creates
      exact others pair chosen version body
    rw [awaiting, requests, List.filter_append, none, List.append_nil]
    exact List.Sublist.refl _
  have erased : ∀ {q : Request}, core.requests = s.requests.erase q →
      (awaiting core).Sublist (awaiting s.toCore) := by
    intro q requests
    rw [awaiting, requests]
    exact (List.erase_sublist.filter _).map _
  cases moves with
  | raise => exact .inl (erased rfl)
  | refuse => exact .inl (erased rfl)
  | revokeLease => exact .inl (erased rfl)
  | createChunk => exact .inl (erased rfl)
  | @create _ _ targets _ fresh distinct =>
      refine .inr ⟨fresh, targets, distinct, ?_⟩
      have all : ∀ list : List ServerId, ((list.map fun target =>
          (⟨s.number, target, .createChunk 1⟩ : Request)).filter Request.creates).map (·.target) =
            list := by
        intro list
        induction list with
        | nil => rfl
        | cons target list ih =>
            rw [List.map_cons, List.filter_cons_of_pos rfl, List.map_cons, ih]
      simp only [awaiting, Core.send, List.filter_append, List.map_append, List.map_map]
      exact congrArg _ (all targets)
  | @send g attempt list =>
      refine .inl (sent rfl fun pair member version same => ?_)
      simp only [bodies, List.mem_cons, List.mem_map] at member
      rcases member with rfl | ⟨_, _, rfl⟩
      · cases same
      · cases same
  | revoke =>
      refine .inl (sent rfl fun pair member version same => ?_)
      obtain rfl := List.mem_singleton.mp member
      cases same
  | _ => exact .inl (List.Sublist.refl _)

theorem Untouched.last (untouched : Untouched s.toCore grants) {q q' : Request}
    (pending : q ∈ s.requests) (creates : Request.creates q = true)
    (other : q' ∈ s.requests.erase q) (creates' : Request.creates q' = true) :
    q'.target ≠ q.target := by
  intro same
  have distinct : (s.requests.filter Request.creates).Nodup := untouched.distinct.of_map _
  have equal : q' = q := by
    refine List.inj_on_of_nodup_map untouched.distinct ?_ ?_ same
    · exact List.mem_filter.mpr ⟨List.mem_of_mem_erase other, creates'⟩
    · exact List.mem_filter.mpr ⟨pending, creates⟩
  subst equal
  have one : (s.requests.filter Request.creates).count q' ≤ 1 :=
    List.nodup_iff_count_le_one.mp distinct q'
  have two : 0 < (s.requests.erase q').count q' := List.count_pos_iff.mpr other
  rw [List.count_filter creates] at one
  rw [List.count_erase_self] at two
  omega

theorem Untouched.move {s' : Cluster} (untouched : Untouched s.toCore grants)
    (begun : Begun cfg s.toCore grants) (born : Born s.toCore)
    (taken : Cluster.step cfg s action = some s') :
    Untouched s'.toCore (grants ++ acknowledged action) := by
  have moves : Moves cfg s action s'.toCore := step_moves taken
  have allocated : ∀ q ∈ s.requests, Request.creates q = true → s.allocated = true := by
    intro q member creates
    obtain ⟨version, body⟩ := creates_eq.mp creates
    exact (born.request q member version body).1
  have none : s.allocated = false → awaiting s.toCore = [] := by
    intro fresh
    refine List.map_eq_nil_iff.mpr (List.filter_eq_nil_iff.mpr fun q member creates => ?_)
    exact Bool.false_ne_true (fresh.symm.trans (allocated q member creates))
  -- a `CreateChunk` that is on its way was so before, or the handle is new
  have old : ∀ q ∈ s'.requests, Request.creates q = true → q ∈ s.requests ∨ s.allocated = false := by
    intro q member creates
    rcases moves.request_cases member with old | ⟨_, sent⟩
    · exact .inl old
    · obtain ⟨version, body⟩ := creates_eq.mp creates
      cases sent with
      | bodies _ sent =>
          simp only [bodies, List.mem_cons, List.mem_map] at sent
          rcases sent with same | ⟨_, _, same⟩
          · cases same
            cases body
          · cases same
            cases body
      | revokeLease => cases body
      | createChunk _ _ _ fresh => exact .inr fresh
  have stored : ∀ q ∈ s'.requests, Request.creates q = true → ∀ entry,
      (s.replica q.target).entry ≠ some entry := by
    intro q member creates entry found
    rcases old q member creates with before | fresh
    · cases found.symm.trans (untouched.entry q before creates)
    · exact Bool.false_ne_true (fresh.symm.trans (born.entry _ _ found).1)
  have half : ∀ q ∈ s'.requests, Request.creates q = true → ∀ half,
      half ∉ (s.replica q.target).halves := by
    intro q member creates half pending
    rcases old q member creates with before | fresh
    · rw [untouched.half q before creates] at pending
      cases pending
    · exact Bool.false_ne_true (fresh.symm.trans (begun.half _ _ pending))
  refine ⟨?_, fun q member creates => ?_, fun q member creates => ?_, fun q member creates version => ?_⟩
  · rcases awaiting_cases moves with fewer | ⟨fresh, targets, distinct, same⟩
    · exact untouched.distinct.sublist fewer
    · rw [same, none fresh]
      exact distinct
  · refine Option.eq_none_iff_forall_ne_some.mpr fun copy found => ?_
    cases moves.copied found with
    | kept before => exact stored q member creates _ before
    | raised _ _ _ before => exact stored q member creates _ before
    | @created io q' data version pending target body =>
        have erased : s'.requests = s.requests.erase q' := execute_requests taken
        rw [erased] at member
        have creates' : Request.creates q' = true := creates_eq.mpr ⟨version, body⟩
        exact untouched.last pending creates' member creates target.symm
  · refine List.eq_nil_iff_forall_not_mem.mpr fun found pending => ?_
    rcases moves.half_cases pending with before | ⟨_, _, _, _, entry, before, _⟩
    · exact half q member creates found before
    · exact stored q member creates entry before
  · intro granted
    rcases grants_cases taken granted with before | ⟨found, pending, _⟩
    · rcases old q member creates with early | fresh
      · exact untouched.grant q early creates version before
      · exact Bool.false_ne_true (fresh.symm.trans (begun.grant _ before))
    · exact half q member creates found pending

/-! ## What a primary stores -/

def Taken (s : Core) (grants : List (ServerId × Nat)) (server : ServerId) (version : Nat) : Prop :=
  (server, version) ∈ grants ∨ ∃ half ∈ (s.replica server).halves, half.version = version

/-- What a chunkserver stores is not below what it has taken. -/
def Stored (s : Core) (grants : List (ServerId × Nat)) : Prop :=
  ∀ server version, Taken s grants server version →
    ∀ entry, (s.replica server).entry = some entry → version ≤ entry.version

theorem taken_cases {s' : Cluster} (taken : Cluster.step cfg s action = some s') {server : ServerId}
    {version : Nat} (takes : Taken s'.toCore (grants ++ acknowledged action) server version) :
    Taken s.toCore grants server version ∨ ∃ q ∈ s.requests, ∃ half, q.target = server ∧
      q.half cfg = some half ∧ half.version = version ∧
      ∃ entry, (s'.replica server).entry = some entry ∧ entry.version = version := by
  rcases takes with granted | ⟨half, pending, rfl⟩
  · exact .inl (grants_cases taken granted)
  · rcases (step_moves taken).half_cases pending with before | ⟨q, member, target, of, _, _, after⟩
    · exact .inl (.inr ⟨half, before, rfl⟩)
    · exact .inr ⟨q, member, half, target, of, rfl, _, after, rfl⟩

theorem Stored.move {s' : Cluster} (stored : Stored s.toCore grants)
    (untouched : Untouched s.toCore grants)
    (ordered : ∀ io q data, action = .execute io q data → ∀ half ∈ q.half cfg,
      ∀ entry ∈ (s.replica q.target).entry, entry.version ≤ half.version)
    (taken : Cluster.step cfg s action = some s') :
    Stored s'.toCore (grants ++ acknowledged action) := by
  intro server version takes copy found
  rcases taken_cases taken takes with before | ⟨_, _, _, _, _, _, entry, after, same⟩
  · cases (step_moves taken).copied found with
    | kept old same => exact same ▸ stored server version before _ old
    | @raised io q data half entry pending target of old same =>
        subst same
        refine (stored server version before entry old).trans ?_
        exact ordered io q data rfl half of entry (target ▸ old)
    | created pending target body =>
        have creates := creates_eq.mpr ⟨_, body⟩
        rcases before with granted | ⟨half, held, _⟩
        · exact absurd (target ▸ granted) (untouched.grant _ pending creates version)
        · rw [← target, untouched.half _ pending creates] at held
          cases held
  · cases after.symm.trans found
    exact same.ge

/-! ## The ledger -/

/-- The chunkserver has acknowledged the version, is about to, or may be asked to. -/
def Abroad (cfg : Config) (s : Core) (grants : List (ServerId × Nat)) (server : ServerId)
    (version : Nat) : Prop :=
  Taken s grants server version ∨
    ∃ q ∈ s.requests, ∃ half, q.target = server ∧ q.half cfg = some half ∧ half.version = version

def trying? (s : Core) : Option Attempt := s.grant.bind (·.phase.trying?)

structure Ledger (cfg : Config) (s : Core) (grants : List (ServerId × Nat)) : Prop where
  table : ∀ m, s.chunk = some m → ∀ server version, Abroad cfg s grants server version →
    version ≤ m.version + 1
  frozen : ∀ attempt, trying? s = some attempt → ∀ m, s.chunk = some m →
    m.granting = true ∧ attempt.version = m.version + 1
  trying : ∀ attempt, trying? s = some attempt → ∀ server version,
    Abroad cfg s grants server version → version ≤ attempt.version
  executed : ∀ attempt list number, Waiting s attempt list number → number ∈ s.executed →
    (attempt.primary, attempt.version) ∈ grants
  returning : ∀ g attempt version, s.grant = some g → g.phase = .returning (some (attempt, version)) →
    (attempt.primary, version) ∈ grants ∧
      ∀ server version', Abroad cfg s grants server version' → version' ≤ version
  lease : ∀ m, s.chunk = some m → ∀ l, m.lease = some l → l.revoked = false →
    (l.primary, m.version) ∈ grants

theorem trying_of_waiting {attempt : Attempt} {list : List ServerId} {number : Nat} {s : Core}
    (waiting : Waiting s attempt list number) : trying? s = some attempt := by
  obtain ⟨g, grant, phase⟩ := waiting
  simp [Granted.trying?, grant, phase, Phase.trying?]

theorem not_trying {g : GrantCall} {s : Core} {attempt : Attempt} (grant : s.grant = some g)
    (phase : g.phase.trying? = none) : trying? s ≠ some attempt := by
  simp [trying?, grant, phase]

theorem trying_of_attempt {s : Core} {attempt : Attempt} (tries : trying? s = some attempt) :
    s.attempt? = some attempt := by
  obtain ⟨g, grant, phase⟩ := Option.bind_eq_some_iff.mp tries
  rw [Core.attempt?, grant, Option.bind_some]
  cases found : g.phase <;> rw [found] at phase <;> cases phase <;> rfl

theorem abroad_cases {s' : Cluster} (taken : Cluster.step cfg s action = some s') {server : ServerId}
    {version : Nat} (abroad : Abroad cfg s'.toCore (grants ++ acknowledged action) server version) :
    Abroad cfg s.toCore grants server version ∨
      ∃ attempt, trying? s.toCore = some attempt ∧ trying? s'.toCore = some attempt ∧
        version = attempt.version := by
  rcases abroad with takes | ⟨q, member, half, target, of, same⟩
  · rcases taken_cases taken takes with before | ⟨q, member, half, target, of, same, _⟩
    · exact .inl (.inl before)
    · exact .inl (.inr ⟨q, member, half, target, of, same⟩)
  · rcases (step_moves taken).request_cases member with before | ⟨_, sent⟩
    · exact .inl (.inr ⟨q, before, half, target, of, same⟩)
    · cases sent with
      | @bodies attempt list receiver body waiting sent =>
          have trying : trying? s.toCore = some attempt := by
            rcases (step_moves taken).waiting_cases waiting with before | ⟨_, _, g, grant, phase⟩
            · exact trying_of_waiting before
            · simp [trying?, grant, phase, Phase.trying?]
          refine .inr ⟨attempt, trying, trying_of_waiting waiting, same ▸ ?_⟩
          simp only [bodies, List.mem_cons, List.mem_map] at sent
          rcases sent with pair | ⟨_, _, pair⟩
          · cases pair
            cases of
            rfl
          · cases pair
            cases of
            rfl
      | revokeLease => cases of
      | createChunk => cases of

theorem trying_cases (moves : Moves cfg s action core) {attempt : Attempt}
    (tries : trying? core = some attempt) : trying? s.toCore = some attempt ∨
      trying? s.toCore = none ∧ ∃ m, s.chunk = some m ∧ attempt.version = m.version + 1 ∧
        core.chunk = some { m with granting := true } := by
  have kept : ∀ {g : GrantCall} {phase : Phase} {attempt : Attempt}, s.grant = some g →
      g.phase = phase → phase.trying? = some attempt → trying? s.toCore = some attempt := by
    rintro g _ attempt grant rfl same
    rw [trying?, grant]
    exact same
  cases moves with
  | prepare grant phase chunk prepared =>
      obtain ⟨rfl, version, _⟩ := ChunkMeta.prepareLocked_eq prepared
      cases tries
      exact .inr ⟨by simp [trying?, grant, phase, Phase.trying?], _, chunk, version, rfl⟩
  | resolve grant phase => exact .inl (kept grant phase tries)
  | send grant phase => exact .inl (kept grant phase tries)
  | commit => cases tries
  | startGrant => cases tries
  | prepareFailed => cases tries
  | loseChunk => cases tries
  | failRound => cases tries
  | clear => cases tries
  | return_ => cases tries
  | _ => exact .inl tries

/-- What a step does to the version and to the lease of the chunk. -/
inductive Versioned (cfg : Config) (s : Cluster) (core : Core) (m' : ChunkMeta) : Action → Prop
  | kept {action : Action} {m : ChunkMeta} : s.chunk = some m → m'.version = m.version →
      (m.granting = true → m'.granting = true ∨ trying? core = none) →
      (∀ l', m'.lease = some l' → l'.revoked = false →
        ∃ l, m.lease = some l ∧ l.revoked = false ∧ l.primary = l'.primary) →
      Versioned cfg s core m' action
  | raised {b : Beat} {time : TimePoint} {m : ChunkMeta} : s.chunk = some m → m.granting = false →
      m.version < m'.version → b.version = some m'.version →
      (∀ l', m'.lease = some l' → l'.revoked = false →
        ∃ l, m.lease = some l ∧ l.revoked = false ∧ l.primary = l'.primary) →
      Versioned cfg s core m' (.heartBeat b time)
  | committed {action : Action} {m : ChunkMeta} {attempt : Attempt} {list : List ServerId}
      {number : Nat} : s.chunk = some m → Waiting s.toCore attempt list number →
      (∀ id ∈ members attempt, s.succeeded number id = true) → trying? core = none →
      m' = m.commit cfg s.now attempt → Versioned cfg s core m' action
  | created {action : Action} : s.allocated = false → m'.lease = none →
      Versioned cfg s core m' action

theorem Versioned.of_follows {b : Beat} {time : TimePoint} {m m' : ChunkMeta}
    (chunk : s.chunk = some m) (follows : m.Follows m')
    (raised : m'.version = m.version ∨ b.version = some m'.version)
    (lease : ∀ l', m'.lease = some l' → l'.revoked = false →
      ∃ l, m.lease = some l ∧ l.revoked = false ∧ l.primary = l'.primary) :
    Versioned cfg s core m' (.heartBeat b time) := by
  rcases follows.version.eq_or_lt with same | above
  · exact .kept chunk same.symm (fun granting => .inl (follows.granting.trans granting)) lease
  · have free : m.granting = false := by
      refine Bool.eq_false_iff.mpr fun granting => ?_
      exact absurd (follows.frozen granting) above.ne'
    exact .raised chunk free above (raised.resolve_left above.ne') lease

theorem versioned (moves : Moves cfg s action core) {m' : ChunkMeta} (chunk' : core.chunk = some m') :
    Versioned cfg s core m' action := by
  have moved : ∀ {m₁ m₂ : ChunkMeta}, s.chunk = some m₁ → some m₂ = some m' →
      m₂.version = m₁.version → (m₁.granting = true → m₂.granting = true) →
      (∀ l', m₂.lease = some l' → l'.revoked = false →
        ∃ l, m₁.lease = some l ∧ l.revoked = false ∧ l.primary = l'.primary) →
      Versioned cfg s core m' action := by
    intro m₁ m₂ chunk same version granting lease
    cases same
    exact .kept chunk version (fun on => .inl (granting on)) lease
  have mapped : ∀ {f : ChunkMeta → ChunkMeta}, s.chunk.map f = some m' →
      (∀ m, (f m).version = m.version ∧ (f m).granting = m.granting ∧ (f m).lease = m.lease) →
      Versioned cfg s core m' action := by
    intro f same alike
    obtain ⟨m, chunk, rfl⟩ := Option.map_eq_some_iff.mp same
    obtain ⟨version, granting, lease⟩ := alike m
    refine .kept chunk version (fun on => .inl (granting.trans on)) fun l found unrevoked => ?_
    exact ⟨l, lease ▸ found, unrevoked, rfl⟩
  cases moves with
  | heartBeat _ chunk follows lease raised =>
      cases chunk'
      refine .of_follows chunk follows raised fun l found unrevoked => ?_
      exact ⟨l, lease ▸ found, unrevoked, rfl⟩
  | heartBeatExtend _ chunk follows lease _ _ _ _ lease' raised =>
      cases chunk'
      refine .of_follows chunk follows raised fun l' found unrevoked => ?_
      cases lease'.symm.trans found
      exact ⟨_, lease, unrevoked, rfl⟩
  | sweep chunk => exact moved chunk chunk' rfl id fun l h r => ⟨l, h, r, rfl⟩
  | create fresh =>
      cases chunk'
      exact .created fresh rfl
  | createFailed => cases chunk'
  | created _ chunk => exact moved chunk chunk' rfl id fun l h r => ⟨l, h, r, rfl⟩
  | dropChunk => cases chunk'
  | removeFile => exact mapped chunk' fun _ => ⟨rfl, rfl, rfl⟩
  | copyOnWrite chunk => exact moved chunk chunk' rfl id fun l h r => ⟨l, h, r, rfl⟩
  | expire chunk => exact moved chunk chunk' rfl id nofun
  | prepare _ _ chunk prepared =>
      obtain ⟨rfl, _⟩ := ChunkMeta.prepareLocked_eq prepared
      exact moved chunk chunk' rfl (fun _ => rfl) fun l h r => ⟨l, h, r, rfl⟩
  | failRound _ _ chunk => exact moved chunk chunk' rfl id fun l h r => ⟨l, h, r, rfl⟩
  | commit grant phase chunk acked =>
      cases chunk'
      exact .committed chunk ⟨_, grant, phase⟩ acked rfl rfl
  | clear =>
      obtain ⟨m, chunk, rfl⟩ := Option.map_eq_some_iff.mp chunk'
      exact .kept chunk rfl (fun _ => .inr rfl) fun l h r => ⟨l, h, r, rfl⟩
  | revoke chunk =>
      exact moved chunk chunk' rfl id fun l h r => by cases h; cases r
  | markRevoked chunk =>
      exact moved chunk chunk' rfl id fun l h r => by cases h; cases r
  | endRevoke _ chunk => exact moved chunk chunk' rfl id nofun
  | snapshotFinish same =>
      exact mapped (same.symm.trans chunk') fun _ => ⟨rfl, rfl, rfl⟩
  | snapshotReset chunk => exact moved chunk chunk' rfl id nofun
  | _ => exact .kept chunk' rfl .inl fun l h r => ⟨l, h, r, rfl⟩

theorem Ledger.acked (ledger : Ledger cfg s.toCore grants) (rounds : Rounds cfg s.toCore)
    {attempt : Attempt} {list : List ServerId} {number : Nat} {m : ChunkMeta}
    (chunk : s.chunk = some m) (waiting : Waiting s.toCore attempt list number)
    (acked : ∀ id ∈ members attempt, s.succeeded number id = true) :
    (attempt.primary, attempt.version) ∈ grants ∧
      max m.version attempt.version = attempt.version := by
  have success := acked attempt.primary List.mem_cons_self
  have ended : (⟨number, attempt.primary, true⟩ : Answer) ∈ s.ended := by
    simpa [succeeded] using success
  have executed : number ∈ s.executed := (rounds.ended _ ended).2 rfl attempt list waiting rfl
  refine ⟨ledger.executed attempt list number waiting executed, ?_⟩
  have next := (ledger.frozen attempt (trying_of_waiting waiting) m chunk).2
  omega

theorem Ledger.move {s' : Cluster} (ledger : Ledger cfg s.toCore grants)
    (begun : Begun cfg s.toCore grants) (rounds : Rounds cfg s.toCore)
    (honest : ∀ b time, action = .heartBeat b time → ∀ m ∈ s.chunk, m.granting = false →
      ∀ l ∈ m.lease, l.revoked = false → ∀ version ∈ b.version, m.version < version →
        (l.primary, version) ∈ grants)
    (taken : Cluster.step cfg s action = some s') :
    Ledger cfg s'.toCore (grants ++ acknowledged action) := by
  have moves : Moves cfg s action s'.toCore := step_moves taken
  have unborn : s.allocated = false → ∀ server version, ¬ Abroad cfg s.toCore grants server version := by
    rintro fresh server version ((granted | ⟨half, pending, _⟩) | ⟨q, member, half, _, of, _⟩)
    · exact Bool.false_ne_true (fresh.symm.trans (begun.grant _ granted))
    · exact Bool.false_ne_true (fresh.symm.trans (begun.half _ _ pending))
    · exact Bool.false_ne_true (fresh.symm.trans (begun.request q member (by simp [of])))
  have idle : s.allocated = false → trying? s.toCore = none := by
    refine fun fresh => Option.eq_none_iff_forall_ne_some.mpr fun attempt tries => ?_
    exact Bool.false_ne_true (fresh.symm.trans (begun.attempt _ (trying_of_attempt tries)))
  refine ⟨fun m' chunk' server version abroad => ?_, fun attempt tries m' chunk' => ?_,
    fun attempt tries server version abroad => ?_, fun attempt list number waiting member => ?_,
    fun g attempt version grant phase => ?_, fun m' chunk' l lease unrevoked => ?_⟩
  · rcases moves.version_le.2 m' chunk' with ⟨m, chunk, grows⟩ | ⟨fresh, _⟩
    · rcases abroad_cases taken abroad with before | ⟨attempt, tries, _, rfl⟩
      · exact (ledger.table m chunk server version before).trans (Nat.succ_le_succ grows)
      · rw [(ledger.frozen attempt tries m chunk).2]
        exact Nat.succ_le_succ grows
    · rcases abroad_cases taken abroad with before | ⟨attempt, tries, _⟩
      · exact absurd before (unborn fresh server version)
      · cases (idle fresh).symm.trans tries
  · rcases trying_cases moves tries with before | ⟨_, m, chunk, version, after⟩
    · cases versioned moves chunk' with
      | @kept _ m chunk same granting =>
          obtain ⟨on, version⟩ := ledger.frozen attempt before m chunk
          refine ⟨(granting on).resolve_right fun none => ?_, same ▸ version⟩
          cases none.symm.trans tries
      | @raised _ _ m chunk free =>
          exact absurd (ledger.frozen attempt before m chunk).1 (by simp [free])
      | committed _ _ _ none => cases none.symm.trans tries
      | created fresh => cases (idle fresh).symm.trans before
    · cases after.symm.trans chunk'
      exact ⟨rfl, version⟩
  · rcases trying_cases moves tries with before | ⟨none, m, chunk, next, _⟩
    · rcases abroad_cases taken abroad with old | ⟨other, same, _, rfl⟩
      · exact ledger.trying attempt before server version old
      · cases before.symm.trans same
        exact le_rfl
    · rcases abroad_cases taken abroad with old | ⟨other, same, _⟩
      · exact next ▸ ledger.table m chunk server version old
      · cases none.symm.trans same
  · rcases moves.waiting_cases waiting with before | ⟨rfl, _⟩
    · rcases moves.executed_cases with ⟨same, _⟩ |
        ⟨server, version, lease, secondaries, last, rfl, pending, more, _⟩
      · exact List.mem_append_left _ (ledger.executed attempt list number before (same ▸ member))
      · rw [more] at member
        rcases List.mem_append.mp member with old | new
        · exact List.mem_append_left _ (ledger.executed attempt list number before old)
        · obtain rfl := List.mem_singleton.mp new
          rcases ((rounds.half server _ pending).2 attempt list before).cases with ⟨rfl, grant⟩ | ⟨_, other⟩
          · cases grant
            exact List.mem_append_right _ (List.mem_singleton.mpr rfl)
          · cases other
    -- the number of a round that starts to wait is a new one
    · rcases moves.executed_cases with ⟨same, _⟩ | ⟨server, _, _, _, last, _, pending, more, _⟩
      · exact absurd (rounds.executed _ (same ▸ member)) (lt_irrefl _)
      · rw [more] at member
        rcases List.mem_append.mp member with old | new
        · exact absurd (rounds.executed _ old) (lt_irrefl _)
        · obtain same := List.mem_singleton.mp new
          exact absurd (same ▸ (rounds.half server _ pending).1) (lt_irrefl _)
  · rcases moves.returning_cases grant phase with before |
      ⟨m, list, number, _, chunk, waiting, acked, same, after⟩
    · obtain ⟨granted, highest⟩ := ledger.returning g attempt version before phase
      refine ⟨List.mem_append_left _ granted, fun server version' abroad => ?_⟩
      rcases abroad_cases taken abroad with old | ⟨other, tries, _⟩
      · exact highest server version' old
      · exact absurd tries (not_trying before (by rw [phase]; rfl))
    · obtain ⟨granted, top⟩ := ledger.acked rounds chunk waiting acked
      obtain rfl : version = attempt.version := same.trans top
      refine ⟨List.mem_append_left _ granted, fun server version' abroad => ?_⟩
      rcases abroad_cases taken abroad with old | ⟨other, tries, _, rfl⟩
      · exact ledger.trying attempt (trying_of_waiting waiting) server version' old
      · cases (trying_of_waiting waiting).symm.trans tries
        exact le_rfl
  · refine List.mem_append_left _ ?_
    cases versioned moves chunk' with
    | @kept _ m chunk same _ leases =>
        obtain ⟨l₀, found, unrevoked₀, primary⟩ := leases l lease unrevoked
        rw [same, ← primary]
        exact ledger.lease m chunk l₀ found unrevoked₀
    | @raised b time m chunk free above reported leases =>
        obtain ⟨l₀, found, unrevoked₀, primary⟩ := leases l lease unrevoked
        rw [← primary]
        exact honest b time rfl m chunk free l₀ found unrevoked₀ _ reported above
    | @committed _ m attempt _ _ chunk waiting acked _ same =>
        obtain ⟨granted, top⟩ := ledger.acked rounds chunk waiting acked
        subst same
        cases lease
        rw [ChunkMeta.commit, top]
        exact granted
    | created _ none => cases none.symm.trans lease

/-! ## Runs -/

/-- Every answer was a real grant when it was given. -/
def Noted.Answers (w : Noted) : Prop := ∀ pair ∈ w.answers, Real pair.1 pair.2

structure Sound (cfg : Config) (w : Noted) : Prop where
  born : Born w.cluster.toCore
  rounds : Rounds cfg w.cluster.toCore
  begun : Begun cfg w.cluster.toCore w.grants
  untouched : Untouched w.cluster.toCore w.grants
  stored : Stored w.cluster.toCore w.grants
  ledger : Ledger cfg w.cluster.toCore w.grants
  answers : w.Answers

theorem Noted.Initial.sound {w : Noted} (initial : w.Initial) : Sound cfg w := by
  obtain ⟨s, start, rfl⟩ := initial
  refine ⟨start.born, start.rounds, ?_, ?_, ?_, ?_, nofun⟩
  · obtain ⟨now, registry, buffers, rfl⟩ := start
    exact ⟨nofun, nofun, nofun, nofun⟩
  · obtain ⟨now, registry, buffers, rfl⟩ := start
    exact ⟨List.nodup_nil, nofun, nofun, nofun⟩
  · obtain ⟨now, registry, buffers, rfl⟩ := start
    rintro server version (granted | ⟨half, pending, _⟩)
    · cases granted
    · cases pending
  · obtain ⟨now, registry, buffers, rfl⟩ := start
    refine ⟨nofun, nofun, nofun, ?_, nofun, nofun⟩
    rintro attempt list number ⟨g, grant, _⟩
    cases grant

/-- What `FindLeaseHolder` answers in this step is a real grant. -/
theorem Sound.real {w : Noted} (sound : Sound cfg w) {k : Known}
    (certain : ∀ f copied, action = .findStep f copied → f.phase = .decide →
      ∀ m ∈ w.cluster.chunk, m.isValid cfg w.cluster.now = true → ∀ l ∈ m.lease,
        ∃ entry ∈ (w.cluster.replica l.primary).entry, entry.version ≤ m.version)
    (told : Told cfg w.cluster action k) : Real k w.grants := by
  cases told with
  | @valid f copied m l same _ phase chunk lease valid known =>
      subst known
      have unrevoked : l.revoked = false := by
        unfold ChunkMeta.isValid at valid
        rw [lease] at valid
        simp only [Bool.and_eq_true, Bool.not_eq_true'] at valid
        exact valid.1.1
      refine ⟨sound.ledger.lease m chunk l lease unrevoked, fun version granted => ?_⟩
      obtain ⟨entry, found, low⟩ := certain f copied same phase m chunk valid l lease
      exact (sound.stored _ _ (.inl granted) entry found).trans low
  | @granted g attempt version grant phase same primary =>
      obtain ⟨granted, highest⟩ := sound.ledger.returning g attempt version grant phase
      rw [Real, primary, same]
      exact ⟨granted, fun version' granted' => highest _ _ (.inl (.inl granted'))⟩

theorem Sound.step {w w' : Noted} (sound : Sound cfg w) (allowed : Allowed cfg w action)
    (taken : w.step cfg action = some w') : Sound cfg w' := by
  obtain ⟨s', stepped, rfl⟩ := Option.map_eq_some_iff.mp taken
  have moves : Moves cfg w.cluster action s'.toCore := step_moves stepped
  refine ⟨sound.born.move moves, sound.rounds.move moves, sound.begun.move sound.born moves stepped,
    sound.untouched.move sound.begun sound.born stepped, ?_, ?_, ?_⟩
  · refine sound.stored.move sound.untouched ?_ stepped
    rintro io q data rfl
    exact allowed
  · refine sound.ledger.move sound.begun sound.rounds ?_ stepped
    rintro b time rfl
    exact allowed
  · intro pair member
    rcases List.mem_append.mp member with old | new
    · exact sound.answers pair old
    · obtain ⟨added, same, told⟩ := moves.known_eq
      rw [same, List.drop_left] at new
      obtain ⟨k, isNew, rfl⟩ := List.mem_map.mp new
      refine sound.real ?_ (told k isNew)
      rintro f copied rfl
      exact allowed

end

instance (cfg : Config) (w : Noted) : (action : Action) → Decidable (Allowed cfg w action)
  | .heartBeat b _ =>
      inferInstanceAs (Decidable (∀ m ∈ w.cluster.chunk, m.granting = false → ∀ l ∈ m.lease,
        l.revoked = false → ∀ version ∈ b.version, m.version < version →
          (l.primary, version) ∈ w.grants))
  | .execute _ q _ =>
      inferInstanceAs (Decidable (∀ half ∈ q.half cfg, ∀ entry ∈ (w.cluster.replica q.target).entry,
        entry.version ≤ half.version))
  | .findStep f _ =>
      inferInstanceAs (Decidable (f.phase = .decide → ∀ m ∈ w.cluster.chunk,
        m.isValid cfg w.cluster.now = true → ∀ l ∈ m.lease,
          ∃ entry ∈ (w.cluster.replica l.primary).entry, entry.version ≤ m.version))
  | .complete _ _ | .tick _ | .push _ _ _ | .client _ _ | .deliver _ | .advance _ _
  | .acceptForward _ | .timeoutForward _ _ | .finish _ | .markCorrupt _
  | .accept _ | .timeout _ _ | .compose _ | .receive _ | .giveUp _ | .obey _ | .touch _ | .sweep
  | .sweepLocations | .create _ _ _ _ | .endCreate | .dropChunk | .removeFile _ | .find _ _
  | .regrant | .grantStep | .revoke _ _ | .endRevoke _ | .snapshot _
  | .snapshotFinish _ _ => isTrue trivial

/-- The first of two clients that ask for the lease at once gets it, at version 2. -/
def leased : List Action :=
  addChunk {} fileA [serverP, serverQ] 0 ++ (requestLease fileA).dropLast ++ requestLease fileA ++
    sendRound [serverQ] ++ serve {} ⟨1, serverP, .grantLease 2 [serverQ]⟩ ++
    serve {} ⟨1, serverQ, .updateVersion 2⟩ ++ [.grantStep, .grantStep]

/-- The second round does not reach its primary, and both acknowledgements are missing; then the
primary reports version 2 and its secondary version 3. -/
def missed : List Action :=
  leased ++ [.findStep ⟨fileA, 0, .queued⟩ false] ++ sendRound [serverQ] ++
    (serve {} ⟨2, serverQ, .updateVersion 3⟩).dropLast ++ [.timeout 2 serverP, .timeout 2 serverQ] ++
    List.replicate 4 .grantStep ++
    sendHeartbeat serverP ++ handle ⟨3, serverP, some 2, false, false⟩ 0 ++
    sendHeartbeat serverQ ++ handle ⟨4, serverQ, some 3, false, false⟩ 0 ++
    (requestLease fileA).dropLast

theorem initial_noted : Noted.Initial { cluster := twoServers } := ⟨_, initial_twoServers, rfl⟩

/-- A third client is told of the same lease from the table. -/
def leasedTwice : List Action := leased ++ (requestLease fileA).dropLast

end Gfs.Cluster.Granted
