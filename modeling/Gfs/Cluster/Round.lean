import Gfs.Cluster.Effects

/-!
# Copies and rounds in every run

Facts that need no condition on the run: where copies come from, and that the requests, handlers and
answers that carry the number of the round of grants that waits belong to it.
-/

namespace Gfs.Cluster
open Chunkserver Master Lib.Transition

/-- Copies come from `CreateChunk`, which only the chunkservers that were chosen for it are sent. -/
structure Born (s : Core) : Prop where
  chunk : ∀ m, s.chunk = some m → s.allocated = true
  entry : ∀ server entry, (s.replica server).entry = some entry →
    s.allocated = true ∧ server ∈ s.targets
  request : ∀ q ∈ s.requests, ∀ version, q.body = .createChunk version →
    s.allocated = true ∧ q.target ∈ s.targets ∧ version = 1

section
variable {cfg : Config} {s : Cluster} {action : Action} {core : Core}

theorem Moves.targets_cases (moves : Moves cfg s action core) :
    core.allocated = s.allocated ∧ core.targets = s.targets ∨
      s.allocated = false ∧ core.allocated = true := by
  cases moves with
  | create fresh => exact .inr ⟨fresh, rfl⟩
  | _ => exact .inl ⟨rfl, rfl⟩

theorem Born.move (born : Born s.toCore) (moves : Moves cfg s action core) : Born core := by
  have kept : ∀ {server}, s.allocated = true ∧ server ∈ s.targets →
      core.allocated = true ∧ server ∈ core.targets := by
    rintro server ⟨allocated, member⟩
    rcases moves.targets_cases with ⟨sameAllocated, sameTargets⟩ | ⟨fresh, _⟩
    · exact ⟨sameAllocated ▸ allocated, sameTargets ▸ member⟩
    · simp [allocated] at fresh
  constructor
  · intro m' chunk'
    rcases moves.version_le.2 m' chunk' with ⟨m, chunk, _⟩ | ⟨_, now, _⟩
    · exact moves.version_le.1 (born.chunk m chunk)
    · exact now
  · intro server entry found
    cases moves.copied found with
    | kept old _ _ => exact kept (born.entry server _ old)
    | raised _ _ _ old _ => exact kept (born.entry server _ old)
    | created pending target body _ =>
        obtain ⟨allocated, member, _⟩ := born.request _ pending _ body
        exact kept (target ▸ ⟨allocated, member⟩)
  · intro q member version body
    rcases moves.request_cases member with old | ⟨_, sent⟩
    · obtain ⟨allocated, target, same⟩ := born.request q old version body
      obtain ⟨allocated', target'⟩ := kept ⟨allocated, target⟩
      exact ⟨allocated', target', same⟩
    · cases sent with
      | bodies _ sent =>
          simp only [bodies, List.mem_cons, List.mem_map] at sent
          rcases sent with same | ⟨_, _, same⟩ <;> cases same <;> cases body
      | revokeLease => cases body
      | createChunk _ allocated target =>
          cases body
          exact ⟨allocated, target, rfl⟩

/-! ## Rounds of grants -/

/-- The handler is one of those that the round has started. -/
def Belongs (cfg : Config) (attempt : Attempt) (list : List ServerId) (server : ServerId)
    (half : Half) : Prop :=
  ∃ body, (server, body) ∈ bodies attempt list ∧
    Request.half cfg ⟨half.tag, server, body⟩ = some half

theorem Belongs.cases {attempt : Attempt} {list : List ServerId} {server : ServerId} {half : Half}
    (belongs : Belongs cfg attempt list server half) :
    (server = attempt.primary ∧ half = .grant attempt.version cfg.leaseDuration list half.tag) ∨
      server ∈ attempt.secondaries ∧ half = .update attempt.version half.tag := by
  obtain ⟨body, member, same⟩ := belongs
  rcases List.mem_cons.mp member with grant | update
  · cases grant
    exact .inl ⟨rfl, (Option.some.inj same).symm⟩
  · obtain ⟨_, secondary, pair⟩ := List.mem_map.mp update
    cases pair
    exact .inr ⟨secondary, (Option.some.inj same).symm⟩

/-- A success of the primary of the round that waits means that the grant was executed. -/
def Heard (s : Core) (a : Answer) : Prop :=
  a.number < s.number ∧ (a.ok = true → ∀ attempt list, Waiting s attempt list a.number →
    a.target = attempt.primary → a.number ∈ s.executed)

structure Rounds (cfg : Config) (s : Core) : Prop where
  version : ∀ m, s.chunk = some m → 1 ≤ m.version
  attempt : ∀ attempt, s.attempt? = some attempt →
    attempt.primary ∉ attempt.secondaries ∧ 2 ≤ attempt.version
  waiting : ∀ attempt list number, Waiting s attempt list number → number < s.number
  request : ∀ q ∈ s.requests, q.number < s.number ∧
    ∀ attempt list, Waiting s attempt list q.number → (q.target, q.body) ∈ bodies attempt list
  half : ∀ server, ∀ half ∈ (s.replica server).halves, half.tag < s.number ∧
    ∀ attempt list, Waiting s attempt list half.tag → Belongs cfg attempt list server half
  answer : ∀ a ∈ s.answers, Heard s a
  ended : ∀ e ∈ s.ended, Heard s e
  executed : ∀ number ∈ s.executed, number < s.number

theorem Waiting.unique {attempt attempt' : Attempt} {list list' : List ServerId}
    {number number' : Nat} {s : Core} (waiting : Waiting s attempt list number)
    (other : Waiting s attempt' list' number') :
    attempt = attempt' ∧ list = list' ∧ number = number' := by
  obtain ⟨g, grant, phase⟩ := waiting
  obtain ⟨g', grant', phase'⟩ := other
  cases grant.symm.trans grant'
  cases phase.symm.trans phase'
  exact ⟨rfl, rfl, rfl⟩

theorem Waiting.attempt? {attempt : Attempt} {list : List ServerId} {number : Nat}
    (waiting : Waiting s.toCore attempt list number) : s.attempt? = some attempt := by
  obtain ⟨g, grant, phase⟩ := waiting
  simp [Core.attempt?, grant, phase, Phase.attempt?]

theorem half_tag {q : Request} {half : Half} (of : q.half cfg = some half) :
    half.tag = q.number := by
  cases body : q.body <;> simp [Request.half, body] at of <;> subst of <;> rfl

theorem Moves.waiting_of_lt (moves : Moves cfg s action core) {attempt : Attempt}
    {list : List ServerId} {number : Nat} (old : number < s.number)
    (waiting : Waiting core attempt list number) : Waiting s.toCore attempt list number := by
  rcases moves.waiting_cases waiting with before | ⟨rfl, _⟩
  · exact before
  · exact absurd old (lt_irrefl _)

theorem Heard.move {a : Answer} (heard : Heard s.toCore a) (moves : Moves cfg s action core) :
    Heard core a :=
  ⟨heard.1.trans_le moves.number_le, fun ok attempt list waiting primary =>
    moves.executed_subset (heard.2 ok attempt list (moves.waiting_of_lt heard.1 waiting) primary)⟩

theorem Rounds.heard {a : Answer} (rounds : Rounds cfg s.toCore) (moves : Moves cfg s action core)
    (answered : Answered s core a) : Heard core a := by
  cases answered with
  | failed pending => exact ⟨(rounds.request _ pending).1.trans_le moves.number_le, nofun⟩
  | @other q pending body =>
      obtain ⟨old, belongs⟩ := rounds.request _ pending
      refine ⟨old.trans_le moves.number_le, fun _ attempt list waiting _ => ?_⟩
      have sent := belongs attempt list (moves.waiting_of_lt old waiting)
      simp only [bodies, List.mem_cons, Prod.mk.injEq, List.mem_map] at sent
      rcases body with revoke | ⟨_, create⟩
      · rcases sent with ⟨_, other⟩ | ⟨_, _, _, other⟩
        · rw [revoke] at other
          cases other
        · rw [revoke] at other
          cases other
      · rcases sent with ⟨_, other⟩ | ⟨_, _, _, other⟩
        · rw [create] at other
          cases other
        · rw [create] at other
          cases other
  | @grantLease server version lease secondaries number pending executed =>
      obtain ⟨old, _⟩ := rounds.half server _ pending
      exact ⟨old.trans_le moves.number_le, fun _ _ _ _ _ => executed⟩
  | @updateVersion server version number pending =>
      obtain ⟨old, belongs⟩ := rounds.half server _ pending
      refine ⟨old.trans_le moves.number_le, fun _ attempt list waiting primary => ?_⟩
      have before := moves.waiting_of_lt old waiting
      rcases (belongs attempt list before).cases with ⟨_, other⟩ | ⟨secondary, _⟩
      · cases other
      · exact absurd (primary ▸ secondary) (rounds.attempt attempt before.attempt?).1

theorem Rounds.move (rounds : Rounds cfg s.toCore) (moves : Moves cfg s action core) :
    Rounds cfg core := by
  constructor
  · intro m' chunk'
    rcases moves.version_le.2 m' chunk' with ⟨m, chunk, grows⟩ | ⟨_, _, one⟩
    · exact (rounds.version m chunk).trans grows
    · exact one.ge
  · intro attempt tries
    rcases moves.attempt_cases tries with old | ⟨g, m, m', _, _, chunk, prepared, _⟩
    · exact rounds.attempt attempt old
    · obtain ⟨_, version, _, apart⟩ := ChunkMeta.prepareLocked_eq prepared
      have positive := rounds.version m chunk
      exact ⟨apart, by omega⟩
  · intro attempt list number waiting
    rcases moves.waiting_cases waiting with old | ⟨rfl, next, _⟩
    · exact (rounds.waiting attempt list number old).trans_le moves.number_le
    · exact next ▸ Nat.lt_succ_self _
  · intro q member
    rcases moves.request_cases member with old | ⟨next, sent⟩
    · obtain ⟨earlier, belongs⟩ := rounds.request q old
      exact ⟨earlier.trans_le moves.number_le,
        fun attempt list waiting => belongs attempt list (moves.waiting_of_lt earlier waiting)⟩
    · have fresh : core.grant = s.grant → ∀ attempt list, ¬ Waiting core attempt list s.number := by
        rintro same attempt list ⟨g, grant, phase⟩
        exact lt_irrefl _ (rounds.waiting attempt list s.number ⟨g, same ▸ grant, phase⟩)
      cases sent with
      | @bodies attempt list target body waiting sent =>
          refine ⟨next ▸ Nat.lt_succ_self _, fun attempt' list' waiting' => ?_⟩
          obtain ⟨rfl, rfl, _⟩ := waiting.unique waiting'
          exact sent
      | revokeLease same =>
          exact ⟨next ▸ Nat.lt_succ_self _, fun _ _ waiting => absurd waiting (fresh same _ _)⟩
      | createChunk same =>
          exact ⟨next ▸ Nat.lt_succ_self _, fun _ _ waiting => absurd waiting (fresh same _ _)⟩
  · intro server half member
    rcases moves.half_cases member with old | ⟨q, pending, rfl, of, _⟩
    · obtain ⟨earlier, belongs⟩ := rounds.half server half old
      exact ⟨earlier.trans_le moves.number_le,
        fun attempt list waiting => belongs attempt list (moves.waiting_of_lt earlier waiting)⟩
    · obtain ⟨earlier, belongs⟩ := rounds.request q pending
      have tag := half_tag of
      rw [tag]
      refine ⟨earlier.trans_le moves.number_le, fun attempt list waiting => ⟨q.body, ?_, ?_⟩⟩
      · exact belongs attempt list (moves.waiting_of_lt earlier waiting)
      · rw [tag]
        exact of
  · intro a member
    rcases moves.answer_cases member with old | answered
    · exact (rounds.answer a old).move moves
    · exact rounds.heard moves answered
  · intro e member
    rcases moves.ended_cases member with old | answered | ⟨past, failed⟩
    · exact (rounds.ended e old).move moves
    · exact (rounds.answer e answered).move moves
    · exact ⟨past.trans_le moves.number_le, fun ok => by simp [failed] at ok⟩
  · intro number member
    rcases moves.executed_cases with ⟨same, _⟩ | ⟨server, _, _, _, last, _, pending, more, _⟩
    · exact (rounds.executed number (same ▸ member)).trans_le moves.number_le
    · rw [more] at member
      rcases List.mem_append.mp member with old | new
      · exact (rounds.executed number old).trans_le moves.number_le
      · obtain rfl := List.mem_singleton.mp new
        exact (rounds.half server _ pending).1.trans_le moves.number_le

theorem Initial.rounds (initial : Initial s) : Rounds cfg s.toCore := by
  obtain ⟨now, registry, buffers, rfl⟩ := initial
  constructor <;> simp [Core.attempt?, Waiting, Core.replica]

theorem Initial.born (initial : Initial s) : Born s.toCore := by
  obtain ⟨now, registry, buffers, rfl⟩ := initial
  exact ⟨nofun, nofun, nofun⟩

theorem always {allowed : Cluster → Action → Prop}
    (reachable : Reachable (step cfg) Initial allowed s) : Born s.toCore ∧ Rounds cfg s.toCore := by
  have born : Born s.toCore := by
    refine reachable.invariant (fun _ initial => initial.born) ?_
    exact fun _ _ _ inv _ taken => inv.move (step_moves taken)
  have rounds : Rounds cfg s.toCore := by
    refine reachable.invariant (fun _ initial => initial.rounds) ?_
    exact fun _ _ _ inv _ taken => inv.move (step_moves taken)
  exact ⟨born, rounds⟩

end

end Gfs.Cluster
