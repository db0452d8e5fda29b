import Gfs.Cluster.Moves

/-!
# What a step does to the parts of the state

One inversion lemma for each part that the invariants speak about: the stored versions, the handlers
that have set a version, the last list of secondaries, the requests and the answers of the master's
calls, and the round of grants that waits.
-/

namespace Gfs.Cluster
open Chunkserver Master

section
variable {cfg : Config} {s : Cluster} {action : Action} {core : Core}

theorem setReplica_same {β : Type} (f : Replica → β) {g : Group} {server : ServerId} {r : Replica}
    (same : f r = f (g.replicas server)) (other : ServerId) :
    f ((g.setReplica server r).replicas other) = f (g.replicas other) := by
  by_cases eq : other = server
  · subst eq
    rw [Group.setReplica_self, same]
  · rw [Group.setReplica_of_ne eq]

theorem setSender_cases {senders : ServerId → Option Sender} {server other : ServerId}
    {sender : Option Sender} {found : Sender}
    (h : Function.update senders server sender other = some found) :
    senders other = some found ∨ other = server ∧ sender = some found := by
  by_cases eq : other = server
  · subst eq
    exact .inr ⟨rfl, by simpa using h⟩
  · exact .inl (by simpa [eq] using h)

/-! ## Copies -/

inductive Copied (cfg : Config) (s : Cluster) (server : ServerId) (copy : ChunkEntry) : Action → Prop
  | kept {action : Action} {entry : ChunkEntry} : (s.replica server).entry = some entry →
      copy.version = entry.version → (action.isMutation = false → copy = entry) →
      Copied cfg s server copy action
  | raised {io : Io} {q : Request} {data : Bytes} {half : Half} {entry : ChunkEntry} :
      q ∈ s.requests → q.target = server → q.half cfg = some half →
      (s.replica server).entry = some entry → copy = { entry with version := half.version } →
      Copied cfg s server copy (.execute io q data)
  | created {io : Io} {q : Request} {data : Bytes} {version : Nat} : q ∈ s.requests →
      q.target = server → q.body = .createChunk version → copy = { version, data } →
      Copied cfg s server copy (.execute io q data)

theorem Moves.copied (moves : Moves cfg s action core) {server : ServerId} {copy : ChunkEntry}
    (found : (core.replica server).entry = some copy) : Copied cfg s server copy action := by
  have kept : ∀ {target : ServerId} {r : Replica},
      core.group = s.group.setReplica target r → r.entry = (s.replica target).entry →
      Copied cfg s server copy action := by
    intro target r group same
    rw [Core.replica, group, setReplica_same Replica.entry same server] at found
    exact .kept found rfl fun _ => rfl
  -- the replica of another chunkserver
  have other : ∀ {target : ServerId} {r : Replica}, core.group = s.group.setReplica target r →
      server ≠ target → Copied cfg s server copy action := by
    intro target r group eq
    rw [Core.replica, group, Group.setReplica_of_ne eq] at found
    exact .kept found rfl fun _ => rfl
  have self : ∀ {r : Replica}, core.group = s.group.setReplica server r → r.entry = some copy := by
    intro r group
    rwa [Core.replica, group, Group.setReplica_self] at found
  cases moves with
  | mutate mutates keeps =>
      have same := (keeps.replica server).version
      obtain ⟨entry, stored, version⟩ := Option.map_eq_some_iff.mp
        (same.symm.trans (congrArg (Option.map (·.version)) found))
      exact .kept stored version.symm fun calm => by simp [mutates] at calm
  | markCorrupt => exact kept rfl rfl
  | @raise io q data half entry pending of stored =>
      by_cases eq : server = q.target
      · subst eq
        exact .raised pending rfl of stored (Option.some.inj (self rfl)).symm
      · exact other rfl eq
  | revokeLease => exact kept rfl rfl
  | @createChunk io q data version pending body _ =>
      by_cases eq : server = q.target
      · subst eq
        exact .created pending rfl body (Option.some.inj (self rfl)).symm
      · exact other rfl eq
  | grantLease => exact kept rfl rfl
  | updateVersion => exact kept rfl rfl
  | receive => exact kept rfl rfl
  | obeyRevoke => exact kept rfl rfl
  | @remove target =>
      by_cases eq : server = target
      · subst eq
        cases self rfl
      · exact other rfl eq
  | @removeNothing target =>
      by_cases eq : server = target
      · subst eq
        cases self rfl
      · exact other rfl eq
  | extend => exact kept rfl rfl
  | _ => exact .kept found rfl fun _ => rfl

/-! ## Leases of the chunkservers -/

/-- A lease is held under a new expiry only by the end of a `GrantLease` or by an extension. -/
theorem Moves.held_cases (moves : Moves cfg s action core) {server : ServerId} {until_ : TimePoint}
    (holds : core.held server = some until_) :
    s.held server = some until_ ∨
      (∃ version lease secondaries number,
        action = .complete server (.grant version lease secondaries number) ∧
        .grant version lease secondaries number ∈ (s.replica server).halves ∧
        core.grant = s.grant ∧ core.executed = s.executed ++ [number] ∧ core.now = s.now ∧
        until_ = s.now + lease - cfg.leaseClockSkewMargin) ∨
      ∃ a, action = .obey server ∧ s.senders server = some (.extending a) ∧ a.extended = true ∧
        (s.held server).isSome = true ∧ core.now = s.now ∧
        until_ = s.now + cfg.leaseDuration - cfg.leaseClockSkewMargin := by
  have kept : ∀ {target : ServerId} {r : Replica}, core.group = s.group.setReplica target r →
      LeaseTable.heldUntil r.slot = LeaseTable.heldUntil (s.replica target).slot →
      s.held server = some until_ := by
    intro target r group same
    rw [Core.held, Core.replica, group] at holds
    rw [← holds]
    exact (setReplica_same (fun r => LeaseTable.heldUntil r.slot) same server).symm
  -- only the lease of `target` is touched
  have other : ∀ {target : ServerId} {r : Replica}, core.group = s.group.setReplica target r →
      server ≠ target → s.held server = some until_ := by
    intro target r group eq
    rwa [Core.held, Core.replica, group, Group.setReplica_of_ne eq] at holds
  have self : ∀ {r : Replica}, core.group = s.group.setReplica server r →
      LeaseTable.heldUntil r.slot = some until_ := by
    intro r group
    rwa [Core.held, Core.replica, group, Group.setReplica_self] at holds
  have revoked : ∀ {target : ServerId} {r : Replica}, core.group = s.group.setReplica target r →
      r.slot = LeaseTable.revoke (s.replica target).slot → s.held server = some until_ := by
    intro target r group slot
    by_cases eq : server = target
    · subst eq
      have gone := self group
      rw [slot, LeaseTable.heldUntil_revoke] at gone
      cases gone
    · exact other group eq
  cases moves with
  | mutate _ keeps => exact .inl ((keeps.replica server).held.symm.trans holds)
  | markCorrupt => exact .inl (kept rfl rfl)
  | raise => exact .inl (kept rfl rfl)
  | revokeLease => exact .inl (revoked rfl rfl)
  | createChunk => exact .inl (kept rfl rfl)
  | @grantLease target version lease secondaries number pending =>
      by_cases eq : server = target
      · subst eq
        have granted := self rfl
        simp only [Replica.completeHalf, LeaseTable.heldUntil_grant, Option.some.injEq] at granted
        exact .inr (.inl ⟨_, _, _, _, rfl, pending, rfl, rfl, rfl, granted.symm⟩)
      · exact .inl (other rfl eq)
  | updateVersion => exact .inl (revoked rfl rfl)
  | receive => exact .inl (kept rfl rfl)
  | obeyRevoke => exact .inl (revoked rfl rfl)
  | remove => exact .inl (kept rfl rfl)
  | removeNothing => exact .inl (kept rfl rfl)
  | @extend target a sender extended =>
      by_cases eq : server = target
      · subst eq
        have renewed := self rfl
        simp only [Replica.extendLease, LeaseTable.heldUntil_extend, Option.map_eq_some_iff] at renewed
        obtain ⟨before, holds', rfl⟩ := renewed
        have isHeld : s.held server = some before := holds'
        exact .inr (.inr ⟨a, rfl, sender, extended, isHeld ▸ rfl, rfl, rfl⟩)
      · exact .inl (other rfl eq)
  | _ => exact .inl holds

/-! ## Extensions on their way -/

/-- An answer that extends the lease of `server`, given at `time`, can still be obeyed. -/
def Extending (s : Core) (server : ServerId) (time : TimePoint) : Prop :=
  (∃ a ∈ s.beatAnswers, a.extended = true ∧ a.beat.server = server ∧ a.time = time) ∨
    ∃ sender a, s.senders server = some sender ∧ sender.answer? = some a ∧ a.extended = true ∧
      a.time = time

theorem Extending.of_sender {target server : ServerId} {new : Option Sender} {time : TimePoint}
    (extending : Extending core server time)
    (senders : core.senders = Function.update s.senders target new)
    (answers : core.beatAnswers = s.beatAnswers)
    (before : ∀ next a, new = some next → next.answer? = some a → a.extended = true →
      Extending s.toCore target a.time) : Extending s.toCore server time := by
  rcases extending with sent | ⟨next, a, found, answer, extended, rfl⟩
  · exact .inl (answers ▸ sent)
  · rw [senders] at found
    rcases setSender_cases found with old | ⟨rfl, isNew⟩
    · exact .inr ⟨next, a, old, answer, extended, rfl⟩
    · exact before next a isNew answer extended

theorem Extending.dropped {target server : ServerId} {time : TimePoint}
    (extending : Extending core server time)
    (senders : core.senders = Function.update s.senders target none)
    (answers : core.beatAnswers = s.beatAnswers) : Extending s.toCore server time := by
  refine extending.of_sender senders answers fun next a isNew => ?_
  cases isNew

theorem Extending.obeying {target server : ServerId} {before after : Sender} {time : TimePoint}
    (extending : Extending core server time) (sender : s.senders target = some before)
    (senders : core.senders = Function.update s.senders target (some after))
    (answers : core.beatAnswers = s.beatAnswers) (same : after.answer? = before.answer?) :
    Extending s.toCore server time := by
  refine extending.of_sender senders answers fun next a isNew answer extended => ?_
  obtain rfl := Option.some.inj isNew
  exact .inr ⟨before, a, sender, same ▸ answer, extended, rfl⟩

theorem Extending.of_answer {server : ServerId} {new : BeatAnswer} {time : TimePoint}
    (extending : Extending core server time) (senders : core.senders = s.senders)
    (answers : core.beatAnswers = s.beatAnswers ++ [new]) : Extending s.toCore server time ∨
      new.extended = true ∧ new.beat.server = server ∧ new.time = time := by
  rcases extending with ⟨a, member, extended⟩ | ⟨next, a, found, rest⟩
  · rw [answers] at member
    rcases List.mem_append.mp member with old | last
    · exact .inl (.inl ⟨a, old, extended⟩)
    · exact .inr (List.mem_singleton.mp last ▸ extended)
  · exact .inl (.inr ⟨next, a, senders ▸ found, rest⟩)

theorem Moves.extending_cases (moves : Moves cfg s action core) {server : ServerId}
    {time : TimePoint} (extending : Extending core server time) :
    Extending s.toCore server time ∨ ∃ b, action = .heartBeat b time ∧ (b, time) ∈ s.handling ∧
      core.recorded = some (server, time + cfg.leaseDuration) := by
  cases moves with
  | list =>
      refine .inl (extending.of_sender rfl rfl fun next a same answer _ => ?_)
      obtain rfl := Option.some.inj same
      cases answer
  | ask =>
      refine .inl (extending.of_sender rfl rfl fun next a same answer _ => ?_)
      obtain rfl := Option.some.inj same
      cases answer
  | sendBeat =>
      refine .inl (extending.of_sender rfl rfl fun next a same answer _ => ?_)
      obtain rfl := Option.some.inj same
      cases answer
  | receive pending =>
      refine .inl (extending.of_sender rfl rfl fun next a same answer extended => ?_)
      obtain rfl := Option.some.inj same
      obtain rfl := Option.some.inj answer
      exact .inl ⟨_, pending, extended, rfl, rfl⟩
  | giveUp => exact .inl (extending.dropped rfl rfl)
  | obeyRevoke before => exact .inl (extending.obeying before rfl rfl rfl)
  | obeySkip before => exact .inl (extending.obeying before rfl rfl rfl)
  | remove before => exact .inl (extending.obeying before rfl rfl rfl)
  | removeNothing before => exact .inl (extending.obeying before rfl rfl rfl)
  | extend => exact .inl (extending.dropped rfl rfl)
  | obeyed => exact .inl (extending.dropped rfl rfl)
  | heartBeatUnknown =>
      rcases extending.of_answer rfl rfl with old | ⟨extended, _⟩
      · exact .inl old
      · cases extended
  | heartBeat =>
      rcases extending.of_answer rfl rfl with old | ⟨extended, _⟩
      · exact .inl old
      · cases extended
  | @heartBeatExtend b t m m' l delete pending _ _ _ _ _ _ primary lease =>
      rcases extending.of_answer rfl rfl with old | ⟨_, rfl, rfl⟩
      · exact .inl old
      · exact .inr ⟨b, rfl, pending, by simp [Core.recorded, lease, primary]⟩
  | _ => exact .inl extending

theorem Moves.handling_cases (moves : Moves cfg s action core) {b : Beat} {time : TimePoint}
    (member : (b, time) ∈ core.handling) : (b, time) ∈ s.handling ∨ time = s.now := by
  cases moves with
  | touch =>
      rcases List.mem_append.mp member with old | new
      · exact .inl old
      · cases List.mem_singleton.mp new
        exact .inr rfl
  | heartBeatUnknown => exact .inl (List.mem_of_mem_erase member)
  | heartBeat => exact .inl (List.mem_of_mem_erase member)
  | heartBeatExtend => exact .inl (List.mem_of_mem_erase member)
  | _ => exact .inl member

/-! ## Requests and answers of the master's calls -/

def Waiting (s : Core) (attempt : Attempt) (list : List ServerId) (number : Nat) : Prop :=
  ∃ g, s.grant = some g ∧ g.phase = .waiting attempt list number

inductive Sent (s core : Core) : Request → Prop
  | bodies {attempt : Attempt} {list : List ServerId} {target : ServerId} {body : Body} :
      Waiting core attempt list s.number → (target, body) ∈ bodies attempt list →
      Sent s core ⟨s.number, target, body⟩
  | revokeLease {target : ServerId} : core.grant = s.grant →
      Sent s core ⟨s.number, target, .revokeLease⟩
  | createChunk {target : ServerId} : core.grant = s.grant → core.allocated = true →
      target ∈ core.targets → s.allocated = false → Sent s core ⟨s.number, target, .createChunk 1⟩

theorem Moves.request_cases (moves : Moves cfg s action core) {q : Request}
    (member : q ∈ core.requests) :
    q ∈ s.requests ∨ core.number = s.number + 1 ∧ Sent s.toCore core q := by
  cases moves with
  | raise => exact .inl (List.mem_of_mem_erase member)
  | refuse => exact .inl (List.mem_of_mem_erase member)
  | revokeLease => exact .inl (List.mem_of_mem_erase member)
  | createChunk => exact .inl (List.mem_of_mem_erase member)
  | create fresh =>
      rcases List.mem_append.mp member with old | new
      · exact .inl old
      · obtain ⟨⟨target, body⟩, sent, rfl⟩ := List.mem_map.mp new
        obtain ⟨_, chosen, same⟩ := List.mem_map.mp sent
        cases same
        exact .inr ⟨rfl, .createChunk rfl rfl chosen fresh⟩
  | send =>
      rcases List.mem_append.mp member with old | new
      · exact .inl old
      · obtain ⟨⟨target, body⟩, sent, rfl⟩ := List.mem_map.mp new
        exact .inr ⟨rfl, .bodies ⟨_, rfl, rfl⟩ sent⟩
  | revoke =>
      rcases List.mem_append.mp member with old | new
      · exact .inl old
      · obtain rfl := List.mem_singleton.mp new
        exact .inr ⟨rfl, .revokeLease rfl⟩
  | _ => exact .inl member

theorem Moves.half_cases (moves : Moves cfg s action core) {server : ServerId} {half : Half}
    (member : half ∈ (core.replica server).halves) :
    half ∈ (s.replica server).halves ∨
      ∃ q ∈ s.requests, q.target = server ∧ q.half cfg = some half ∧
        ∃ entry, (s.replica server).entry = some entry ∧
          (core.replica server).entry = some { entry with version := half.version } := by
  have kept : ∀ {target : ServerId} {r : Replica},
      core.group = s.group.setReplica target r →
      (∀ other ∈ r.halves, other ∈ (s.replica target).halves) → half ∈ (s.replica server).halves := by
    intro target r group less
    rw [Core.replica, group] at member
    by_cases eq : server = target
    · subst eq
      rw [Group.setReplica_self] at member
      exact less half member
    · rwa [Group.setReplica_of_ne eq] at member
  cases moves with
  | mutate _ keeps => exact .inl ((keeps.replica server).halves ▸ member)
  | markCorrupt => exact .inl (kept rfl fun _ => id)
  | @raise io q data half' entry pending of stored =>
      by_cases eq : server = q.target
      · subst eq
        have member' : half ∈ (s.replica q.target).halves ++ [half'] := by
          simpa [Core.replica, Core.setReplica] using member
        rcases List.mem_append.mp member' with old | new
        · exact .inl old
        · obtain rfl := List.mem_singleton.mp new
          refine .inr ⟨q, pending, rfl, of, entry, stored, ?_⟩
          simp [Core.replica, Core.setReplica]
      · refine .inl ?_
        simpa [Core.replica, Core.setReplica, Group.setReplica_of_ne eq] using member
  | revokeLease => exact .inl (kept rfl fun _ => id)
  | createChunk => exact .inl (kept rfl fun _ => id)
  | grantLease => exact .inl (kept rfl fun _ => List.mem_of_mem_erase)
  | updateVersion => exact .inl (kept rfl fun _ => List.mem_of_mem_erase)
  | receive => exact .inl (kept rfl fun _ => id)
  | obeyRevoke => exact .inl (kept rfl fun _ => id)
  | remove => exact .inl (kept rfl fun _ => id)
  | removeNothing => exact .inl (kept rfl fun _ => id)
  | extend => exact .inl (kept rfl fun _ => id)
  | _ => exact .inl member

inductive Answered (s : Cluster) (core : Core) : Answer → Prop
  | failed {q : Request} : q ∈ s.requests → Answered s core ⟨q.number, q.target, false⟩
  | other {q : Request} : q ∈ s.requests →
      q.body = .revokeLease ∨ (∃ version, q.body = .createChunk version) →
      Answered s core ⟨q.number, q.target, true⟩
  | grantLease {server : ServerId} {version : Nat} {lease : Duration} {secondaries : List ServerId}
      {number : Nat} : .grant version lease secondaries number ∈ (s.replica server).halves →
      number ∈ core.executed → Answered s core ⟨number, server, true⟩
  | updateVersion {server : ServerId} {version number : Nat} :
      .update version number ∈ (s.replica server).halves →
      Answered s core ⟨number, server, true⟩

theorem Moves.answer_cases (moves : Moves cfg s action core) {a : Answer}
    (member : a ∈ core.answers) : a ∈ s.answers ∨ Answered s core a := by
  have added : ∀ {new : Answer}, Answered s core new → a ∈ s.answers ++ [new] →
      a ∈ s.answers ∨ Answered s core a := by
    intro new answered member
    rcases List.mem_append.mp member with old | last
    · exact .inl old
    · exact .inr (List.mem_singleton.mp last ▸ answered)
  cases moves with
  | @refuse io q data ok pending creates =>
      refine added ?_ member
      cases ok with
      | false => exact .failed pending
      | true => exact .other pending (.inr (creates rfl))
  | revokeLease pending body => exact added (.other pending (.inl body)) member
  | createChunk pending body => exact added (.other pending (.inr ⟨_, body⟩)) member
  | grantLease pending =>
      exact added (.grantLease pending (List.mem_append_right _ (List.mem_singleton.mpr rfl))) member
  | updateVersion pending => exact added (.updateVersion pending) member
  | _ => exact .inl member

theorem Moves.ended_cases (moves : Moves cfg s action core) {e : Answer} (member : e ∈ core.ended) :
    e ∈ s.ended ∨ e ∈ s.answers ∨ e.number < s.number ∧ e.ok = false := by
  cases moves with
  | accept answered =>
      rcases List.mem_append.mp member with old | new
      · exact .inl old
      · exact .inr (.inl (List.mem_singleton.mp new ▸ answered))
  | timeout past =>
      rcases List.mem_append.mp member with old | new
      · exact .inl old
      · exact .inr (.inr (List.mem_singleton.mp new ▸ ⟨past, rfl⟩))
  | _ => exact .inl member

theorem Moves.executed_cases (moves : Moves cfg s action core) :
    (core.executed = s.executed ∧
        ∀ server, (core.replica server).granted = (s.replica server).granted) ∨
      ∃ server version lease secondaries number,
        action = .complete server (.grant version lease secondaries number) ∧
        .grant version lease secondaries number ∈ (s.replica server).halves ∧
        core.executed = s.executed ++ [number] ∧
        (core.replica server).granted = secondaries ∧
        ∀ other, other ≠ server → (core.replica other).granted = (s.replica other).granted := by
  have kept : ∀ {target : ServerId} {r : Replica}, core.group = s.group.setReplica target r →
      r.granted = (s.replica target).granted →
      ∀ server, (core.replica server).granted = (s.replica server).granted := by
    intro target r group same server
    rw [Core.replica, group]
    exact setReplica_same Replica.granted same server
  cases moves with
  | mutate _ keeps => exact .inl ⟨rfl, fun server => (keeps.replica server).granted⟩
  | markCorrupt => exact .inl ⟨rfl, kept rfl rfl⟩
  | raise => exact .inl ⟨rfl, kept rfl rfl⟩
  | revokeLease => exact .inl ⟨rfl, kept rfl rfl⟩
  | createChunk => exact .inl ⟨rfl, kept rfl rfl⟩
  | @grantLease server version lease secondaries number pending =>
      refine .inr ⟨server, version, lease, secondaries, number, rfl, pending, rfl, ?_, ?_⟩
      · simp [Core.replica, Core.setReplica, Core.answer, Replica.completeHalf]
      · intro other ne
        simp [Core.replica, Core.setReplica, Core.answer, Group.setReplica_of_ne ne]
  | updateVersion => exact .inl ⟨rfl, kept rfl rfl⟩
  | receive => exact .inl ⟨rfl, kept rfl rfl⟩
  | obeyRevoke => exact .inl ⟨rfl, kept rfl rfl⟩
  | remove => exact .inl ⟨rfl, kept rfl rfl⟩
  | removeNothing => exact .inl ⟨rfl, kept rfl rfl⟩
  | extend => exact .inl ⟨rfl, kept rfl rfl⟩
  | _ => exact .inl ⟨rfl, fun _ => rfl⟩

theorem Moves.executed_subset (moves : Moves cfg s action core) {number : Nat}
    (member : number ∈ s.executed) : number ∈ core.executed := by
  rcases moves.executed_cases with ⟨same, _⟩ | ⟨_, _, _, _, _, _, _, more, _⟩
  · exact same ▸ member
  · exact more ▸ List.mem_append_left _ member

theorem Moves.number_le (moves : Moves cfg s action core) : s.number ≤ core.number := by
  cases moves with
  | create => exact Nat.le_succ _
  | sendBeat => exact Nat.le_succ _
  | send => exact Nat.le_succ _
  | revoke => exact Nat.le_succ _
  | _ => exact Nat.le_refl _

theorem Moves.waiting_cases (moves : Moves cfg s action core) {attempt : Attempt}
    {list : List ServerId} {number : Nat} (waiting : Waiting core attempt list number) :
    Waiting s.toCore attempt list number ∨ number = s.number ∧ core.number = s.number + 1 ∧
      ∃ g, s.grant = some g ∧ g.phase = .resolving attempt [] list := by
  obtain ⟨g', grant', phase'⟩ := waiting
  cases moves with
  | send grant phase =>
      cases grant'
      cases phase'
      exact .inr ⟨rfl, rfl, _, grant, phase⟩
  | startGrant => cases grant'; cases phase'
  | prepareFailed => cases grant'; cases phase'
  | prepare => cases grant'; cases phase'
  | resolve => cases grant'; cases phase'
  | loseChunk => cases grant'; cases phase'
  | failRound => cases grant'; cases phase'
  | commit => cases grant'; cases phase'
  | clear => cases grant'; cases phase'
  | return_ => cases grant'
  | _ => exact .inl ⟨g', grant', phase'⟩

theorem Moves.attempt_cases (moves : Moves cfg s action core) {attempt : Attempt}
    (tries : core.attempt? = some attempt) : s.attempt? = some attempt ∨
      ∃ g m m', s.grant = some g ∧ g.phase = .preparing ∧ s.chunk = some m ∧
        m.prepareLocked cfg s.alive = some (attempt, m') ∧ action = .grantStep := by
  have kept : ∀ {g : GrantCall} {phase : Phase} {attempt : Attempt}, s.grant = some g →
      g.phase = phase → phase.attempt? = some attempt → s.attempt? = some attempt := by
    rintro g _ attempt grant rfl same
    rw [Core.attempt?, grant]
    exact same
  cases moves with
  | prepare grant phase chunk prepared =>
      cases tries
      exact .inr ⟨_, _, _, grant, phase, chunk, prepared, rfl⟩
  | resolve grant phase => exact .inl (kept grant phase tries)
  | send grant phase => exact .inl (kept grant phase tries)
  | commit grant phase => exact .inl (kept grant phase tries)
  | startGrant => cases tries
  | prepareFailed => cases tries
  | loseChunk => cases tries
  | failRound => cases tries
  | clear => cases tries
  | return_ => cases tries
  | _ => exact .inl tries

theorem Moves.leased_cases (moves : Moves cfg s action core) {m' : ChunkMeta}
    (chunk' : core.chunk = some m') (leased : m'.lease.isSome = true) :
    (∃ m, s.chunk = some m ∧ m.lease.isSome = true) ∨
      ∃ attempt list number, Waiting s.toCore attempt list number ∧
        attempt.version ≤ m'.version := by
  have updated : ∀ {m₁ m₂ : ChunkMeta}, s.chunk = some m₁ → core.chunk = some m₂ →
      m₂.lease.isSome = m₁.lease.isSome → ∃ m, s.chunk = some m ∧ m.lease.isSome = true := by
    intro m₁ m₂ chunk new same
    obtain rfl := Option.some.inj (new.symm.trans chunk')
    exact ⟨m₁, chunk, same ▸ leased⟩
  have mapped : ∀ {f : ChunkMeta → ChunkMeta}, core.chunk = s.chunk.map f →
      (∀ m, (f m).lease = m.lease) → ∃ m, s.chunk = some m ∧ m.lease.isSome = true := by
    intro f new same
    obtain ⟨m, chunk, rfl⟩ := Option.map_eq_some_iff.mp (new.symm.trans chunk')
    exact ⟨m, chunk, same m ▸ leased⟩
  cases moves with
  | heartBeat _ chunk _ lease => exact .inl (updated chunk rfl (by rw [lease]))
  | heartBeatExtend _ chunk _ lease _ _ _ _ lease' =>
      exact .inl (updated chunk rfl (by rw [lease, lease']; rfl))
  | sweep chunk => exact .inl (updated chunk rfl rfl)
  | create =>
      cases chunk'
      cases leased
  | createFailed => cases chunk'
  | created _ chunk => exact .inl (updated chunk rfl rfl)
  | dropChunk => cases chunk'
  | removeFile => exact .inl (mapped rfl fun _ => rfl)
  | copyOnWrite chunk => exact .inl (updated chunk rfl rfl)
  | expire =>
      cases chunk'
      cases leased
  | prepare _ _ chunk prepared =>
      obtain ⟨rfl, _⟩ := ChunkMeta.prepareLocked_eq prepared
      exact .inl (updated chunk rfl rfl)
  | failRound _ _ chunk => exact .inl (updated chunk rfl rfl)
  | commit grant phase =>
      cases chunk'
      exact .inr ⟨_, _, _, ⟨_, grant, phase⟩, Nat.le_max_right _ _⟩
  | clear => exact .inl (mapped rfl fun _ => rfl)
  | revoke chunk lease => exact .inl (updated chunk rfl (by rw [lease]; rfl))
  | markRevoked chunk lease => exact .inl (updated chunk rfl (by rw [lease]; rfl))
  | endRevoke =>
      cases chunk'
      cases leased
  | snapshotFinish new => exact .inl (mapped new fun _ => rfl)
  | snapshotReset =>
      cases chunk'
      cases leased
  | _ => exact .inl ⟨m', chunk', leased⟩

theorem Moves.returning_cases (moves : Moves cfg s action core) {g : GrantCall} {attempt : Attempt}
    {version : Nat} (grant : core.grant = some g)
    (phase : g.phase = .returning (some (attempt, version))) :
    s.grant = some g ∨ ∃ m list number, action = .grantStep ∧ s.chunk = some m ∧
      Waiting s.toCore attempt list number ∧
      (∀ id ∈ members attempt, s.succeeded number id = true) ∧
      version = max m.version attempt.version ∧
      core.chunk = some (m.commit cfg s.now attempt) := by
  cases moves with
  | commit grant' phase' chunk acked =>
      cases grant
      cases phase
      exact .inr ⟨_, _, _, rfl, chunk, ⟨_, grant', phase'⟩, acked, rfl, rfl⟩
  | startGrant => cases grant; cases phase
  | prepareFailed => cases grant; cases phase
  | prepare => cases grant; cases phase
  | resolve => cases grant; cases phase
  | send => cases grant; cases phase
  | loseChunk => cases grant; cases phase
  | failRound => cases grant; cases phase
  | clear => cases grant; cases phase
  | return_ => cases grant
  | _ => exact .inl grant

/-! ## Mutations and what clients are told -/

structure Calm (g g' : Group) : Prop where
  frame : ∀ server, (g'.replicas server).frame = (g.replicas server).frame
  calls : g'.calls = g.calls
  requests : g'.requests = g.requests
  replies : g'.replies = g.replies
  ended : g'.ended = g.ended
  acked : g'.acked = g.acked

theorem Moves.calm (moves : Moves cfg s action core) (notMutation : action.isMutation = false) :
    Calm s.group core.group := by
  have one : ∀ {target : ServerId} {r : Replica}, r.frame = (s.replica target).frame →
      Calm s.group (s.group.setReplica target r) := fun same =>
    ⟨setReplica_same Replica.frame same, rfl, rfl, rfl, rfl, rfl⟩
  cases moves with
  | mutate mutates => simp [mutates] at notMutation
  | markCorrupt => exact one rfl
  | raise => exact one rfl
  | revokeLease => exact one rfl
  | createChunk => exact one rfl
  | grantLease => exact one rfl
  | updateVersion => exact one rfl
  | receive => exact one rfl
  | obeyRevoke => exact one rfl
  | remove => exact one rfl
  | removeNothing => exact one rfl
  | extend => exact one rfl
  | _ => exact ⟨fun _ => rfl, rfl, rfl, rfl, rfl, rfl⟩

inductive Told (cfg : Config) (s : Cluster) (action : Action) (k : Known) : Prop
  | valid {f : Find} {copied : Bool} {m : ChunkMeta} {l : Lease} : action = .findStep f copied →
      f ∈ s.finds → f.phase = .decide → s.chunk = some m → m.lease = some l →
      m.isValid cfg s.now = true → k = ⟨f.path, f.index, m.version, l.primary⟩ →
      Told cfg s action k
  | granted {g : GrantCall} {attempt : Attempt} {version : Nat} : s.grant = some g →
      g.phase = .returning (some (attempt, version)) → k.version = version →
      k.primary = attempt.primary → g.client = some (k.path, k.index) → Told cfg s action k

theorem Moves.known_eq (moves : Moves cfg s action core) :
    ∃ new, core.known = s.known ++ new ∧ ∀ k ∈ new, Told cfg s action k := by
  cases moves with
  | tell member phase chunk lease valid =>
      refine ⟨_, rfl, fun k new => ?_⟩
      exact .valid rfl member phase chunk lease valid (List.mem_singleton.mp new)
  | @return_ g attempt grant phase =>
      refine ⟨_, rfl, fun k new => ?_⟩
      unfold Cluster.granted at new
      split at new
      case h_1 path index attempt version client =>
        obtain rfl := List.mem_singleton.mp new
        exact .granted grant phase rfl rfl client
      case h_2 => cases new
  | _ => exact ⟨[], (List.append_nil _).symm, nofun⟩

theorem Moves.known_cases (moves : Moves cfg s action core) {k : Known} (member : k ∈ core.known) :
    k ∈ s.known ∨ Told cfg s action k := by
  obtain ⟨new, same, told⟩ := moves.known_eq
  rw [same] at member
  exact (List.mem_append.mp member).imp id (told k)

end

end Gfs.Cluster
