import Gfs.Chunkserver.Settle
import Gfs.Cluster.Round

/-!
# Acknowledged mutations are on every listed replica

The versions that clients use come from the table, so they are at most the table's. A chunkserver
that was left out of a mutation has a lower version at that time and never gets a higher one, as
long as no version is set on a copy that is behind the table.
-/

namespace Gfs.Cluster.Acknowledged
open Chunkserver Chunkserver.Settle Master Lib.Transition

/-- Every listed replica that counts as up to date has taken every acknowledged mutation. -/
def Complete (s : Cluster) : Prop :=
  ∀ m ∈ s.group.acked, ∀ chunk, s.chunk = some chunk → ∀ server, server ∈ chunk.locations →
    ∀ entry, (s.replica server).entry = some entry → chunk.version ≤ entry.version → m ∈ entry.log

/-- The list has every other chunkserver that stores this version or a later one. -/
def Lists (s : Cluster) (server : ServerId) (version : Nat) (secondaries : List ServerId) : Prop :=
  ∀ other ∈ s.targets, other ≠ server → ∀ entry ∈ (s.replica other).entry,
    version ≤ entry.version → other ∈ secondaries

/-- A mutation is admitted only by a primary that lists every other chunkserver with its version or
a later one, and a version is set only on a copy that is not behind the table. -/
def Allowed (cfg : Config) (s : Cluster) : Action → Prop
  | .advance _ server => ∀ f ∈ (s.replica server).frame, f.op.isClient = true →
      f.stage = .versioned → ∀ secondaries ∈ (LeaseTable.check s.now (s.replica server).slot).list?,
        Lists s server f.op.version secondaries
  | .execute _ q _ => ∀ half ∈ q.half cfg, ∀ m ∈ s.chunk, ∀ entry ∈ (s.replica q.target).entry,
      m.version ≤ entry.version
  | _ => True

/-! ## Versions that clients know -/

/-- The version has been in the table of a chunk that was granted. -/
structure Bound (s : Core) (version : Nat) : Prop where
  allocated : s.allocated = true
  granted : 2 ≤ version
  le : ∀ m, s.chunk = some m → version ≤ m.version

structure Bounds (s : Core) : Prop where
  lease : ∀ m, s.chunk = some m → m.lease.isSome = true → 2 ≤ m.version
  returning : ∀ g attempt version, s.grant = some g →
    g.phase = .returning (some (attempt, version)) → Bound s version
  known : ∀ k ∈ s.known, Bound s k.version

def Gone (s : Core) : Prop := s.allocated = true ∧ s.chunk = none

section
variable {cfg : Config} {s s' : Cluster} {action : Action} {core : Core}

theorem Bound.move {version : Nat} (bound : Bound s.toCore version)
    (moves : Moves cfg s action core) : Bound core version where
  allocated := moves.version_le.1 bound.allocated
  granted := bound.granted
  le m' chunk' := by
    rcases moves.version_le.2 m' chunk' with ⟨m, chunk, grows⟩ | ⟨fresh, _⟩
    · exact (bound.le m chunk).trans grows
    · simp [bound.allocated] at fresh

theorem Gone.move (gone : Gone s.toCore) (moves : Moves cfg s action core) : Gone core := by
  refine ⟨moves.version_le.1 gone.1, ?_⟩
  obtain none | ⟨m', chunk'⟩ := Option.eq_none_or_eq_some core.chunk
  · exact none
  · rcases moves.version_le.2 m' chunk' with ⟨m, chunk, _⟩ | ⟨fresh, _⟩
    · simp [gone.2] at chunk
    · simp [gone.1] at fresh

theorem Bounds.told (bounds : Bounds s.toCore) (born : Born s.toCore) {k : Known}
    (told : Told cfg s action k) : Bound s.toCore k.version := by
  cases told with
  | valid _ _ _ chunk lease _ same =>
      subst same
      refine ⟨born.chunk _ chunk, bounds.lease _ chunk (lease ▸ rfl), fun m found => ?_⟩
      obtain rfl := Option.some.inj (chunk.symm.trans found)
      exact le_rfl
  | granted grant phase version => exact version ▸ bounds.returning _ _ _ grant phase

theorem Bounds.move (bounds : Bounds s.toCore) (born : Born s.toCore)
    (rounds : Rounds cfg s.toCore) (moves : Moves cfg s action core) : Bounds core := by
  constructor
  · intro m' chunk' leased
    rcases moves.leased_cases chunk' leased with
      ⟨m, chunk, before⟩ | ⟨attempt, list, number, waiting, high⟩
    · rcases moves.version_le.2 m' chunk' with ⟨m₂, chunk₂, grows⟩ | ⟨fresh, _⟩
      · obtain rfl := Option.some.inj (chunk.symm.trans chunk₂)
        exact (bounds.lease m chunk before).trans grows
      · simp [born.chunk m chunk] at fresh
    · exact (rounds.attempt attempt waiting.attempt?).2.trans high
  · intro g attempt version grant phase
    rcases moves.returning_cases grant phase with
      old | ⟨m, list, number, rfl, chunk, waiting, _, rfl, chunk'⟩
    · exact (bounds.returning g attempt version old phase).move moves
    · refine ⟨moves.version_le.1 (born.chunk m chunk), ?_, ?_⟩
      · exact (rounds.attempt attempt waiting.attempt?).2.trans (Nat.le_max_right _ _)
      · intro m' found
        cases chunk'.symm.trans found
        exact le_rfl
  · intro k member
    rcases moves.known_cases member with old | told
    · exact (bounds.known k old).move moves
    · exact (bounds.told born told).move moves

/-! ## The invariant -/

structure Inv (s : Core) : Prop where
  bounds : Bounds s
  settling : ¬ Gone s → Settling s.group
  used : ¬ Gone s → ∀ version, InUse s.group version → Bound s version

theorem settling_fresh (now : TimePoint) (buffers : ServerId → DataBuffer) :
    Settling { now, replicas := fun server => { buffer := buffers server } } := by
  constructor
  · intro server f found
    cases found
  · intro server f found
    cases found
  · intro server server' f f' found
    cases found
  · intro call _
    constructor
    · rintro m (⟨_, none, _⟩ | ⟨_, _, none⟩)
      · cases none
      · cases none
    · rintro r ⟨_, none | none⟩
      · cases none
      · cases none
  · intro m none
    cases none

theorem Initial.inv (initial : Initial s) : Inv s.toCore := by
  obtain ⟨now, registry, buffers, rfl⟩ := initial
  refine ⟨⟨nofun, nofun, nofun⟩, fun _ => settling_fresh now buffers, fun _ version used => ?_⟩
  rcases used with ⟨_, none, _⟩ | ⟨_, _, none, _⟩
  · cases none
  · cases none

theorem inv_calm (inv : Inv s.toCore) (born : Born s.toCore) (rounds : Rounds cfg s.toCore)
    (allowed : Allowed cfg s action) (moves : Moves cfg s action core)
    (notMutation : action.isMutation = false) : Inv core := by
  have calm := moves.calm notMutation
  have before : ¬ Gone core → ¬ Gone s.toCore := fun live gone => live (gone.move moves)
  refine ⟨inv.bounds.move born rounds moves, fun live => ?_, fun live version used => ?_⟩
  · refine (inv.settling (before live)).recopy ?_ calm.frame calm.calls calm.requests calm.replies
      calm.ended calm.acked
    have bound := inv.used (before live)
    intro server copy found
    cases moves.copied found with
    | kept stored _ same =>
        obtain rfl := same notMutation
        exact .inl ⟨_, stored, rfl, .inl rfl⟩
    | @raised io q data half entry pending target of stored raised =>
        subst raised
        refine .inl ⟨entry, stored, rfl, .inr fun version used => ?_⟩
        obtain none | ⟨m, chunk⟩ := Option.eq_none_or_eq_some s.chunk
        · exact absurd ⟨(born.entry server entry stored).1, none⟩ (before live)
        · have current := allowed half of m chunk entry (target ▸ stored)
          exact ((bound version used).le m chunk).trans current
    | created pending _ body created =>
        subst created
        obtain ⟨_, _, rfl⟩ := born.request _ pending _ body
        exact .inr fun version used => (bound version used).granted
  · exact (inv.used (before live) version (inUse_same used calm.frame calm.acked)).move moves

theorem inv_mutation {group : Group} (inv : Inv s.toCore) (born : Born s.toCore)
    (rounds : Rounds cfg s.toCore) (moves : Moves cfg s action core)
    (chunk : core.chunk = s.chunk) (allocated : core.allocated = s.allocated)
    (is : core.group = group) (settling : Settling s.group → Settling group)
    (used : Settling s.group → ∀ version, InUse group version →
      InUse s.group version ∨ Bound s.toCore version) : Inv core := by
  subst is
  have before : ¬ Gone core → ¬ Gone s.toCore := by
    unfold Gone
    rw [chunk, allocated]
    exact id
  refine ⟨inv.bounds.move born rounds moves, fun live => settling (inv.settling (before live)),
    fun live version inUse => ?_⟩
  rcases used (inv.settling (before live)) version inUse with old | bound
  · exact (inv.used (before live) version old).move moves
  · exact bound.move moves

theorem admits_of_allowed {io : Io} {server : ServerId} (born : Born s.toCore)
    (allowed : Allowed cfg s (.advance io server)) : Admits s.group server := by
  intro f frame isClient stage secondaries checked other ne unlisted entry stored
  by_contra high
  refine unlisted (allowed f frame isClient stage secondaries ?_ other
    (born.entry other entry stored).2 ne entry stored (not_lt.mp high))
  exact congrArg LeaseCheck.list? checked

theorem inv_step (known : Born s.toCore ∧ Rounds cfg s.toCore) (inv : Inv s.toCore)
    (allowed : Allowed cfg s action) (taken : step cfg s action = some s') : Inv s'.toCore := by
  obtain ⟨born, rounds⟩ := known
  have moves := step_moves taken
  cases action with
  | push server key data =>
      cases taken
      exact inv_mutation inv born rounds moves rfl rfl rfl (·.push key data) fun _ version used =>
        .inl (inUse_same used (push_same Replica.frame key data fun _ _ => rfl) rfl)
  | client k op =>
      simp only [step, Cluster.client, Option.ite_none_right_eq_some, Option.map_eq_some_iff] at taken
      obtain ⟨⟨member, version⟩, group, started, rfl⟩ := taken
      refine inv_mutation inv born rounds moves rfl rfl rfl (·.startClient started) ?_
      intro _ other used
      rcases inUse_startClient started used with old | rfl
      · exact .inl old
      · exact .inr (version ▸ inv.bounds.known k member)
  | deliver m =>
      obtain ⟨group, delivered, rfl⟩ := Option.map_eq_some_iff.mp taken
      exact inv_mutation inv born rounds moves rfl rfl rfl (·.deliver delivered)
        fun _ _ used => .inl (inUse_deliver delivered used)
  | advance io server =>
      obtain ⟨group, advanced, rfl⟩ := Option.map_eq_some_iff.mp taken
      exact inv_mutation inv born rounds moves rfl rfl rfl
        (·.advance (admits_of_allowed born allowed) advanced)
        fun _ _ used => .inl (inUse_advance advanced used)
  | acceptForward reply =>
      obtain ⟨group, accepted, rfl⟩ := Option.map_eq_some_iff.mp taken
      refine inv_mutation inv born rounds moves rfl rfl rfl (·.accept accepted) ?_
      simp only [Group.accept, Option.ite_none_right_eq_some, Option.some.injEq] at accepted
      obtain ⟨_, rfl⟩ := accepted
      exact fun _ _ used => .inl (inUse_same used (fun _ => rfl) rfl)
  | timeoutForward call secondary =>
      obtain ⟨group, ended, rfl⟩ := Option.map_eq_some_iff.mp taken
      refine inv_mutation inv born rounds moves rfl rfl rfl (·.timeout ended) ?_
      simp only [Group.timeout, Option.ite_none_right_eq_some, Option.some.injEq] at ended
      obtain ⟨_, rfl⟩ := ended
      exact fun _ _ used => .inl (inUse_same used (fun _ => rfl) rfl)
  | finish server =>
      obtain ⟨group, finished, rfl⟩ := Option.map_eq_some_iff.mp taken
      exact inv_mutation inv born rounds moves rfl rfl rfl (·.finish finished)
        fun settling _ used => .inl (inUse_finish settling finished used)
  | _ => exact inv_calm inv born rounds allowed moves rfl

end

theorem Inv.complete {s : Cluster} (inv : Inv s.toCore) : Complete s := by
  intro m acked chunk found server _ entry stored current
  have live : ¬ Gone s.toCore := by
    rintro ⟨_, none⟩
    simp [none] at found
  have bound := inv.used live m.request.version (.inl ⟨m, acked, rfl⟩)
  exact (inv.settling live).acked m acked server entry stored ((bound.le chunk found).trans current)

theorem complete_of_allowed {cfg : Config} {s : Cluster}
    (reachable : Reachable (step cfg) Initial (Allowed cfg) s) : Complete s := by
  have inv : Inv s.toCore := by
    refine reachable.invariant_over (fun _ => always) (fun _ => Initial.inv) ?_
    exact fun _ _ _ known inv allowed taken => inv_step known inv allowed taken
  exact inv.complete

/-! ## Two runs -/

instance (s : Cluster) (server : ServerId) (version : Nat) (secondaries : List ServerId) :
    Decidable (Lists s server version secondaries) :=
  inferInstanceAs (Decidable (∀ other ∈ s.targets, other ≠ server →
    ∀ entry ∈ (s.replica other).entry, version ≤ entry.version → other ∈ secondaries))

instance (cfg : Config) (s : Cluster) (action : Action) : Decidable (Allowed cfg s action) :=
  match action with
  | .advance _ server =>
      inferInstanceAs (Decidable (∀ f ∈ (s.replica server).frame, f.op.isClient = true →
        f.stage = .versioned →
          ∀ secondaries ∈ (LeaseTable.check s.now (s.replica server).slot).list?,
            Lists s server f.op.version secondaries))
  | .execute _ q _ =>
      inferInstanceAs (Decidable (∀ half ∈ q.half cfg, ∀ m ∈ s.chunk,
        ∀ entry ∈ (s.replica q.target).entry, m.version ≤ entry.version))
  | .complete _ _ | .tick _ | .push _ _ _ | .client _ _ | .deliver _
  | .acceptForward _ | .timeoutForward _ _ | .finish _ | .markCorrupt _ | .accept _ | .timeout _ _
  | .compose _ | .receive _ | .giveUp _ | .obey _ | .touch _ | .heartBeat _ _ | .sweep
  | .sweepLocations | .create _ _ _ _ | .endCreate | .dropChunk | .removeFile _ | .find _ _
  | .findStep _ _ | .regrant | .grantStep | .revoke _ _ | .endRevoke _ | .snapshot _
  | .snapshotFinish _ _ => isTrue trivial

def bytesKey : BufferKey := ⟨[], 0⟩

/-- A client writes one byte through the primary `p`, which forwards it to its secondaries. -/
def writeByte (version : Nat) : List Action :=
  [.push serverP bytesKey [7], .push serverQ bytesKey [7],
    .client ⟨fileA, 0, version, serverP⟩ (.write version 0 bytesKey)] ++
    List.replicate 6 (.advance .ok serverP)

def written (version : Nat) : ApplyMutationRequest :=
  { version, serial := 1, kind := .write, offset := 0, key := bytesKey }

/-- The secondary `q` misses the write because the answer of its `UpdateVersion` was lost, and a
heartbeat with the version that was used again brings it back. -/
def comesBack : List Action :=
  addChunk {} fileA [serverP, serverQ] 0 ++ requestLease fileA ++ sendRound [serverQ] ++
    serve {} ⟨1, serverP, .grantLease 2 [serverQ]⟩ ++
    (serve {} ⟨1, serverQ, .updateVersion 2⟩).dropLast ++ [.timeout 1 serverQ, .grantStep] ++
    sendRound [] ++ serve {} ⟨2, serverP, .grantLease 2 []⟩ ++ [.grantStep, .grantStep] ++
    writeByte 2 ++ [.finish serverP] ++
    sendHeartbeat serverQ ++ handle ⟨3, serverQ, some 2, false, false⟩ 0

theorem complete_fails :
    ∃ s, Reachable (step {}) Initial (fun _ _ => True) s ∧ ¬ Complete s := by
  obtain ⟨s, ran⟩ := Option.isSome_iff_exists.mp
    (by decide +kernel : (run (step {}) twoServers comesBack).isSome = true)
  have last : (run (step {}) twoServers comesBack).map (fun s =>
      (s.group.acked, s.chunk.map (fun m => (m.version, m.locations.contains serverQ)),
        (s.replica serverQ).entry)) =
      some ([⟨⟨serverP, 0⟩, written 2⟩], some (2, true), some { version := 2 }) := by
    decide +kernel
  simp only [ran, Option.map_some, Option.some.injEq, Prod.mk.injEq] at last
  obtain ⟨acked, chunk, stored⟩ := last
  obtain ⟨m, chunk, same⟩ := Option.map_eq_some_iff.mp chunk
  obtain ⟨version, listed⟩ := Prod.mk.inj same
  refine ⟨s, reachable_run_true initial_twoServers ran, fun complete => ?_⟩
  have taken := complete ⟨⟨serverP, 0⟩, written 2⟩ (by simp [acked]) m chunk serverQ
    (Std.ExtTreeMap.contains_iff_mem.mp listed) _ stored (by simp [version])
  cases taken

def reachesBoth : List Action :=
  addChunk {} fileA [serverP, serverQ] 0 ++ requestLease fileA ++ sendRound [serverQ] ++
    serve {} ⟨1, serverP, .grantLease 2 [serverQ]⟩ ++ serve {} ⟨1, serverQ, .updateVersion 2⟩ ++
    [.grantStep, .grantStep] ++ writeByte 2 ++
    [.deliver ⟨serverQ, ⟨serverP, 0⟩, written 2⟩] ++ List.replicate 3 (.advance .ok serverQ) ++
    [.acceptForward ⟨0, serverQ, true⟩, .finish serverP] ++
    sendHeartbeat serverQ ++ handle ⟨2, serverQ, some 2, false, false⟩ 0

theorem complete_reachesBoth :
    ∃ s, run (step {}) twoServers reachesBoth = some s ∧
      s.group.acked = [⟨⟨serverP, 0⟩, written 2⟩] ∧
      s.chunk.map (fun m => (m.version, m.locations.contains serverQ)) = some (2, true) ∧
      (s.replica serverQ).entry.map (·.version) = some 2 ∧ Complete s := by
  obtain ⟨s, ran⟩ := Option.isSome_iff_exists.mp
    (by decide +kernel : (run (step {}) twoServers reachesBoth).isSome = true)
  have last : (run (step {}) twoServers reachesBoth).map (fun s =>
      (s.group.acked, s.chunk.map (fun m => (m.version, m.locations.contains serverQ)),
        (s.replica serverQ).entry.map (·.version))) =
      some ([⟨⟨serverP, 0⟩, written 2⟩], some (2, true), some 2) := by
    decide +kernel
  simp only [ran, Option.map_some, Option.some.injEq, Prod.mk.injEq] at last
  exact ⟨s, ran, last.1, last.2.1, last.2.2,
    complete_of_allowed (reachable_run initial_twoServers (by decide +kernel) ran)⟩

end Gfs.Cluster.Acknowledged
