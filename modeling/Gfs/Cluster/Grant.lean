import Gfs.Cluster.Round

/-!
# What a granted version says about the chunkservers that were left out

`GrantSerialized` takes the next version again when a round fails, builds the list of secondaries
after it has chosen the group, and cannot know of requests that are executed after their call has
ended. Each of these can leave a chunkserver at the granted version that the primary does not know.
-/

namespace Gfs.Cluster.Grant
open Chunkserver Master Lib.Transition

/-- When a call of `GrantSerialized` returns a version, every other chunkserver that stores it or a
later one is among the secondaries that the primary was told last. -/
def Fresh (s : Cluster) : Prop :=
  ∀ g attempt version, s.grant = some g → g.phase = .returning (some (attempt, version)) →
    ∀ server entry, server ≠ attempt.primary → (s.replica server).entry = some entry →
      version ≤ entry.version → server ∈ (s.replica attempt.primary).granted

/-- A `GrantLease` that ends now does not take a secondary away from the primary of the attempt. -/
def keepsList (server : ServerId) (secondaries : List ServerId) (number : Nat) : Phase → Bool
  | .waiting attempt _ current =>
      number = current || server ≠ attempt.primary || attempt.secondaries.all (· ∈ secondaries)
  | .returning (some (attempt, _)) =>
      server ≠ attempt.primary || attempt.secondaries.all (· ∈ secondaries)
  | _ => true

/-- A round begins only if the chunkservers with a version above the table's are all in the group,
and succeeds only if all its secondaries are on the list that the primary was sent. -/
def Proceeds (s : Cluster) : Phase → Prop
  | .preparing => ∀ m ∈ s.chunk, ∀ server ∈ s.targets, ∀ entry ∈ (s.replica server).entry,
      m.version < entry.version → server ∈ m.live s.alive
  | .waiting attempt list number => (∀ id ∈ members attempt, s.succeeded number id = true) →
      ∀ id ∈ attempt.secondaries, id ∈ list
  | _ => True

/-- A request of another round changes nothing for a call that has chosen its group. -/
def Allowed (cfg : Config) (s : Cluster) : Action → Prop
  | .grantStep => ∀ g ∈ s.grant, Proceeds s g.phase
  | .execute _ q _ => ∀ half ∈ q.half cfg, ∀ attempt ∈ s.attempt?,
      attempt.version ≤ half.version → q.target ∈ members attempt
  | .complete server (.grant _ _ secondaries number) =>
      ∀ g ∈ s.grant, keepsList server secondaries number g.phase = true
  | _ => True

structure Inv (s : Core) : Prop where
  member : ∀ attempt, s.attempt? = some attempt → ∀ server entry,
    (s.replica server).entry = some entry → attempt.version ≤ entry.version →
      server ∈ members attempt
  listed : ∀ attempt list number, Waiting s attempt list number → number ∈ s.executed →
    ∀ id ∈ attempt.secondaries, id ∈ list → id ∈ (s.replica attempt.primary).granted
  returned : ∀ g attempt version, s.grant = some g →
    g.phase = .returning (some (attempt, version)) →
      attempt.version ≤ version ∧
        ∀ id ∈ attempt.secondaries, id ∈ (s.replica attempt.primary).granted

section
variable {cfg : Config} {s : Cluster} {action : Action} {core : Core}

theorem Initial.inv (initial : Initial s) : Inv s.toCore := by
  obtain ⟨now, registry, buffers, rfl⟩ := initial
  constructor <;> simp [Core.attempt?, Waiting]

theorem inv_member (inv : Inv s.toCore) (born : Born s.toCore) (rounds : Rounds cfg s.toCore)
    (allowed : Allowed cfg s action) (moves : Moves cfg s action core) {attempt : Attempt}
    (tries : core.attempt? = some attempt) {server : ServerId} {entry : ChunkEntry}
    (found : (core.replica server).entry = some entry) (high : attempt.version ≤ entry.version) :
    server ∈ members attempt := by
  rcases moves.attempt_cases tries with old | ⟨g, m, m', grant, phase, chunk, prepared, rfl⟩
  · cases moves.copied found with
    | kept stored same _ => exact inv.member attempt old server _ stored (same ▸ high)
    | raised _ target of _ same =>
        subst same
        exact target ▸ allowed _ of attempt old high
    | created pending _ body same =>
        subst same
        dsimp only at high
        have one := (born.request _ pending _ body).2.2
        have two := (rounds.attempt attempt old).2
        omega
  · obtain ⟨_, version, same, _⟩ := ChunkMeta.prepareLocked_eq prepared
    cases moves.copied found with
    | kept stored same' _ =>
        have begins := allowed g grant
        rw [phase] at begins
        have live := begins m chunk server (born.entry server _ stored).2 _ stored
        exact (same server).mpr (live (by omega))

theorem keepsList_waiting {server : ServerId} {secondaries list : List ServerId} {attempt : Attempt}
    {number current : Nat}
    (keeps : keepsList server secondaries number (.waiting attempt list current) = true)
    (primary : server = attempt.primary) :
    number = current ∨ ∀ id ∈ attempt.secondaries, id ∈ secondaries := by
  simpa [keepsList, primary] using keeps

theorem inv_listed (inv : Inv s.toCore) (rounds : Rounds cfg s.toCore)
    (allowed : Allowed cfg s action) (moves : Moves cfg s action core) {attempt : Attempt}
    {list : List ServerId} {number : Nat} (waiting : Waiting core attempt list number)
    (executed : number ∈ core.executed) {id : ServerId} (secondary : id ∈ attempt.secondaries)
    (listed : id ∈ list) : id ∈ (core.replica attempt.primary).granted := by
  rcases moves.executed_cases with
    ⟨same, granted⟩ | ⟨server, version, lease, secondaries, last, rfl, pending, more, told, others⟩
  · rw [granted]
    rw [same] at executed
    have before := moves.waiting_of_lt (rounds.executed number executed) waiting
    exact inv.listed attempt list number before executed id secondary listed
  · obtain ⟨old, belongs⟩ := rounds.half server _ pending
    have before : Waiting s.toCore attempt list number := by
      rw [more] at executed
      rcases List.mem_append.mp executed with earlier | now
      · exact moves.waiting_of_lt (rounds.executed number earlier) waiting
      · exact moves.waiting_of_lt (List.mem_singleton.mp now ▸ old) waiting
    -- the grant of the round that waits
    have current : last = number → server = attempt.primary ∧ secondaries = list := by
      rintro rfl
      rcases (belongs attempt list before).cases with ⟨primary, same⟩ | ⟨_, other⟩
      · exact ⟨primary, by cases same; rfl⟩
      · cases other
    by_cases primary : attempt.primary = server
    · rw [primary, told]
      obtain ⟨g, grant, phase⟩ := before
      have keeps := allowed g grant
      rw [phase] at keeps
      rcases keepsList_waiting keeps primary.symm with now | all
      · exact (current now).2 ▸ listed
      · exact all id secondary
    · rw [others _ primary]
      refine inv.listed attempt list number before ?_ id secondary listed
      rw [more] at executed
      rcases List.mem_append.mp executed with earlier | now
      · exact earlier
      · exact absurd (current (List.mem_singleton.mp now).symm).1.symm primary

theorem inv_returned (inv : Inv s.toCore) (rounds : Rounds cfg s.toCore)
    (allowed : Allowed cfg s action) (moves : Moves cfg s action core) {g : GrantCall}
    {attempt : Attempt} {version : Nat} (grant : core.grant = some g)
    (phase : g.phase = .returning (some (attempt, version))) :
    attempt.version ≤ version ∧
      ∀ id ∈ attempt.secondaries, id ∈ (core.replica attempt.primary).granted := by
  rcases moves.returning_cases grant phase with
    old | ⟨m, list, number, rfl, chunk, waiting, acked, rfl, _⟩
  · obtain ⟨high, told⟩ := inv.returned g attempt version old phase
    refine ⟨high, fun id secondary => ?_⟩
    rcases moves.executed_cases with
      ⟨_, granted⟩ | ⟨server, _, _, secondaries, last, rfl, _, _, now, others⟩
    · rw [granted]
      exact told id secondary
    · by_cases primary : attempt.primary = server
      · have keeps := allowed g old
        rw [phase] at keeps
        have all : ∀ id ∈ attempt.secondaries, id ∈ secondaries := by
          simpa [keepsList, primary] using keeps
        rw [primary, now]
        exact all id secondary
      · rw [others _ primary]
        exact told id secondary
  · refine ⟨Nat.le_max_right _ _, fun id secondary => ?_⟩
    have primary : (⟨number, attempt.primary, true⟩ : Answer) ∈ s.ended :=
      of_decide_eq_true (acked _ List.mem_cons_self)
    have executed := (rounds.ended _ primary).2 rfl attempt list waiting rfl
    have listed : id ∈ list := by
      obtain ⟨g, grant, phase⟩ := waiting
      have succeeds := allowed g grant
      rw [phase] at succeeds
      exact succeeds acked id secondary
    rcases moves.executed_cases with ⟨_, granted⟩ | ⟨_, _, _, _, _, other, _⟩
    · rw [granted]
      exact inv.listed attempt list number waiting executed id secondary listed
    · cases other

theorem inv_step (known : Born s.toCore ∧ Rounds cfg s.toCore) (inv : Inv s.toCore)
    (allowed : Allowed cfg s action) (moves : Moves cfg s action core) : Inv core where
  member _ tries _ _ := inv_member inv known.1 known.2 allowed moves tries
  listed _ _ _ waiting executed _ := inv_listed inv known.2 allowed moves waiting executed
  returned _ _ _ := inv_returned inv known.2 allowed moves

end

theorem Inv.fresh {s : Cluster} (inv : Inv s.toCore) : Fresh s := by
  intro g attempt version grant phase server entry other stored high
  obtain ⟨least, told⟩ := inv.returned g attempt version grant phase
  have tries : s.attempt? = some attempt := by
    simp [Core.attempt?, grant, phase, Phase.attempt?]
  rcases List.mem_cons.mp (inv.member attempt tries server entry stored (least.trans high)) with
    primary | secondary
  · exact absurd primary other
  · exact told server secondary

theorem fresh_of_allowed {cfg : Config} {s : Cluster}
    (reachable : Reachable (step cfg) Initial (Allowed cfg) s) : Fresh s := by
  have inv : Inv s.toCore := by
    refine reachable.invariant_over (fun _ => always) (fun _ => Initial.inv) ?_
    exact fun _ _ _ known inv allowed taken => inv_step known inv allowed (step_moves taken)
  exact inv.fresh

/-! ## Two runs -/

instance (s : Cluster) (phase : Phase) : Decidable (Proceeds s phase) :=
  match phase with
  | .preparing =>
      inferInstanceAs (Decidable (∀ m ∈ s.chunk, ∀ server ∈ s.targets,
        ∀ entry ∈ (s.replica server).entry, m.version < entry.version → server ∈ m.live s.alive))
  | .waiting attempt list number =>
      inferInstanceAs (Decidable ((∀ id ∈ members attempt, s.succeeded number id = true) →
        ∀ id ∈ attempt.secondaries, id ∈ list))
  | .resolving _ _ _ | .clearing | .returning _ => isTrue trivial

instance (cfg : Config) (s : Cluster) (action : Action) : Decidable (Allowed cfg s action) :=
  match action with
  | .grantStep => inferInstanceAs (Decidable (∀ g ∈ s.grant, Proceeds s g.phase))
  | .execute _ q _ =>
      inferInstanceAs (Decidable (∀ half ∈ q.half cfg, ∀ attempt ∈ s.attempt?,
        attempt.version ≤ half.version → q.target ∈ members attempt))
  | .complete server (.grant _ _ secondaries number) =>
      inferInstanceAs (Decidable (∀ g ∈ s.grant, keepsList server secondaries number g.phase = true))
  | .complete _ (.update _ _) | .tick _ | .push _ _ _ | .client _ _ | .deliver _ | .advance _ _
  | .acceptForward _ | .timeoutForward _ _ | .finish _ | .markCorrupt _ | .accept _ | .timeout _ _
  | .compose _ | .receive _ | .giveUp _ | .obey _ | .touch _ | .heartBeat _ _ | .sweep
  | .sweepLocations | .create _ _ _ _ | .endCreate | .dropChunk | .removeFile _ | .find _ _
  | .findStep _ _ | .regrant | .revoke _ _ | .endRevoke _ | .snapshot _
  | .snapshotFinish _ _ => isTrue trivial

/-- The answer of the secondary is lost, and the second round takes the same version without it. -/
def ackLost : List Action :=
  addChunk {} fileA [serverP, serverQ] 0 ++ requestLease fileA ++ sendRound [serverQ] ++
    (serve {} ⟨1, serverP, .grantLease 2 [serverQ]⟩ ++
      (serve {} ⟨1, serverQ, .updateVersion 2⟩).dropLast ++ [.timeout 1 serverQ, .grantStep]) ++
    sendRound [] ++ serve {} ⟨2, serverP, .grantLease 2 []⟩ ++ [.grantStep]

theorem fresh_fails :
    ∃ s, Reachable (step {}) Initial (fun _ _ => True) s ∧ ¬ Fresh s := by
  obtain ⟨s, ran⟩ := Option.isSome_iff_exists.mp
    (by decide +kernel : (run (step {}) twoServers ackLost).isSome = true)
  have last : (run (step {}) twoServers ackLost).map (fun s =>
      (s.grant.map (·.phase), (s.replica serverQ).entry.map (·.version),
        (s.replica serverP).granted)) =
      some (some (.returning (some (⟨serverP, [], 2⟩, 2))), some 2, []) := by decide +kernel
  simp only [ran, Option.map_some, Option.some.injEq, Prod.mk.injEq] at last
  obtain ⟨phase, stored, told⟩ := last
  obtain ⟨g, grant, phase⟩ := Option.map_eq_some_iff.mp phase
  obtain ⟨entry, found, version⟩ := Option.map_eq_some_iff.mp stored
  refine ⟨s, reachable_run_true initial_twoServers ran, fun fresh => ?_⟩
  have known := fresh g _ _ grant phase serverQ entry (by decide) found version.ge
  rw [told] at known
  cases known

/-- The only round of a call, in which every request is executed and answered. -/
def acked : List Action :=
  addChunk {} fileA [serverP, serverQ] 0 ++ requestLease fileA ++ sendRound [serverQ] ++
    serve {} ⟨1, serverP, .grantLease 2 [serverQ]⟩ ++ serve {} ⟨1, serverQ, .updateVersion 2⟩ ++
    [.grantStep]

theorem fresh_acked :
    ∃ s, run (step {}) twoServers acked = some s ∧
      s.grant.map (·.phase) = some (.returning (some (⟨serverP, [serverQ], 2⟩, 2))) ∧ Fresh s := by
  obtain ⟨s, ran⟩ := Option.isSome_iff_exists.mp
    (by decide +kernel : (run (step {}) twoServers acked).isSome = true)
  have last : (run (step {}) twoServers acked).map (·.grant.map (·.phase)) =
      some (some (.returning (some (⟨serverP, [serverQ], 2⟩, 2)))) := by decide +kernel
  simp only [ran, Option.map_some, Option.some.injEq] at last
  exact ⟨s, ran, last, fresh_of_allowed (reachable_run initial_twoServers (by decide +kernel) ran)⟩

end Gfs.Cluster.Grant
