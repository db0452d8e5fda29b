import Gfs.Chunkserver.LeaseTable
import Gfs.Lib.Transition
import Gfs.Master.ChunkMeta
import Mathlib.Tactic.Linarith

/-!
# The two ends of a lease that is renewed

The lease of one chunk at one chunkserver: the rounds of `GrantSerialized` that choose it for the
primary, with `GrantLease`s that are executed in their round or not at all, and extensions by
heartbeats. The two clocks run at the same rate and `offset` apart. A handler of a heartbeat reads
its clock before it comes to the section under the state mutex, so extensions and grants may
overtake each other there.
-/

namespace Gfs.Cluster.Renewal
open Chunkserver Master Lib.Transition

/-- How far `GrantSerialized` has come: before `PrepareLocked`, between the requests of a round and
its last section (`served` once the chunkserver has executed the `GrantLease`), and before
`clear_granting`. -/
inductive Grant
  | preparing (round : Nat)
  | waiting (round : Nat) (attempt : Attempt) (served : Bool)
  | clearing
deriving DecidableEq

/-- `executed` says that the `GrantSerialized` in progress has had a `GrantLease` executed.
`handlers` have read their clock and still have to extend the lease; `answers` extend it at the
chunkserver when they arrive. -/
structure State where
  now : TimePoint
  offset : Duration
  chunk : ChunkMeta := {}
  slot : Option Slot := none
  grant : Option Grant := none
  executed : Bool := false
  beats : Nat := 0
  handlers : List TimePoint := []
  answers : List TimePoint := []

inductive Action
  | tick (elapsed : Nat)
  | relocate (locations : Std.ExtTreeMap ServerId TimePoint)
  | mutate
  | grant
  | prepare (alive : ServerId → Bool)
  | grantLease (alive : ServerId → Bool)
  | endRound (failed : List ServerId)
  | clear
  | heartbeat
  | handle
  | extend (time : TimePoint)
  | apply (time : TimePoint)
  | lose (time : TimePoint)

namespace State

def there (s : State) : TimePoint := s.now + s.offset

/-- `PrepareLocked`, where it does not choose another primary. -/
def prepare (cfg : Config) (server : ServerId) (s : State) (alive : ServerId → Bool) :
    Option State :=
  match s.grant with
  | some (.preparing round) =>
      match s.chunk.prepareLocked cfg alive with
      | none => some { s with grant := some .clearing }
      | some (attempt, chunk) =>
          if attempt.primary = server then
            some { s with chunk, grant := some (.waiting round attempt false) }
          else none
  | _ => none

/-- The chunkserver executes the `GrantLease` of the round; `alive` were the secondaries that
`Resolve` knew when it was sent. -/
def grantLease (cfg : Config) (s : State) (alive : ServerId → Bool) : Option State :=
  match s.grant with
  | some (.waiting round attempt false) =>
      some { s with
        grant := some (.waiting round attempt true)
        executed := true
        slot := some (LeaseTable.grant cfg.leaseClockSkewMargin s.there cfg.leaseDuration
          (attempt.secondaries.filter alive) s.slot) }
  | _ => none

/-- The last section of a round; whoever did not acknowledge is in `failed`. -/
def endRound (cfg : Config) (server : ServerId) (s : State) (failed : List ServerId) :
    Option State :=
  match s.grant with
  | some (.waiting round attempt served) =>
      if served = false ∧ server ∉ failed then none
      else if failed = [] then
        some { s with chunk := s.chunk.commit cfg s.now attempt, grant := none, executed := false }
      else
        some { s with
          chunk := failed.foldl ChunkMeta.removeLocation s.chunk
          grant := some (if round + 1 < 8 then .preparing (round + 1) else .clearing) }
  | _ => none

/-- `clear_granting`, and the call returns `NO_REPLICAS`. -/
def clear (s : State) : Option State :=
  if s.grant = some .clearing then
    some { s with chunk := { s.chunk with granting := false }, grant := none, executed := false }
  else none

/-- `ExtendLocked` by a handler that read its clock at `time`. -/
def extend (cfg : Config) (server : ServerId) (s : State) (time : TimePoint) : Option State :=
  if time ∈ s.handlers then
    let s := { s with handlers := s.handlers.erase time }
    match s.chunk.extendLocked cfg server time with
    | some chunk => some { s with chunk, answers := s.answers ++ [time] }
    | none => some s
  else none

/-- The answer arrives in time, and the chunkserver extends what it holds. -/
def apply (cfg : Config) (s : State) (time : TimePoint) : Option State :=
  if time ∈ s.answers ∧ s.now ≤ time + 2 * cfg.leaseClockSkewMargin then
    some { s with
      answers := s.answers.erase time
      slot := LeaseTable.extend cfg.leaseClockSkewMargin s.there cfg.leaseDuration s.slot }
  else none

def step (cfg : Config) (server : ServerId) (s : State) : Action → Option State
  | .tick elapsed => some { s with now := s.now + elapsed }
  | .relocate locations => some { s with chunk := { s.chunk with locations } }
  | .mutate => some { s with slot := some (LeaseTable.nextSerial s.slot).2 }
  | .grant => if s.grant = none then some { s with grant := some (.preparing 0) } else none
  | .prepare alive => s.prepare cfg server alive
  | .grantLease alive => s.grantLease cfg alive
  | .endRound failed => s.endRound cfg server failed
  | .clear => s.clear
  | .heartbeat =>
      if LeaseTable.toExtend s.there s.slot then some { s with beats := s.beats + 1 } else none
  | .handle =>
      if 0 < s.beats then
        some { s with beats := s.beats - 1, handlers := s.handlers ++ [s.now] }
      else none
  | .extend time => s.extend cfg server time
  | .apply time => s.apply cfg time
  | .lose time => if time ∈ s.answers then some { s with answers := s.answers.erase time } else none

def Initial (s : State) : Prop := ∃ now offset, s = { now, offset }

/-- While the chunkserver takes itself for the primary, the master holds a new primary back: by the
lease, or by the `GrantSerialized` in progress, whose `GrantLease` was executed. -/
def HeldBack (cfg : Config) (server : ServerId) (s : State) : Prop :=
  ∀ secondaries, LeaseTable.check s.there s.slot = .primary secondaries →
    (s.executed = true ∧ s.grant.isSome = true ∧ s.chunk.granting = true) ∨
      ∃ l, s.chunk.lease = some l ∧ l.primary = server ∧
        s.now ≤ l.expiry + cfg.leaseClockSkewMargin ∧
        (s.chunk.isValid cfg s.now = true ∨ s.chunk.isPendingExpiry cfg s.now = true)

/-- The time at the master that the chunkserver counts its lease from, unless the lease has run
out. -/
def counted (cfg : Config) (s : State) : Option TimePoint :=
  (LeaseTable.heldUntil s.slot).bind fun end_ =>
    if s.there ≤ end_ then some (end_ - s.offset - cfg.leaseDuration + cfg.leaseClockSkewMargin)
    else none

def renewed (cfg : Config) (s : State) : Option TimePoint :=
  s.chunk.lease.map (·.expiry - cfg.leaseDuration)

/-- The clock of a handler that extends the lease is at most two margins behind what the chunkserver
counts from, and no newer extension is still on its way. A `GrantSerialized` that gives up has had
no `GrantLease` executed, or else the record is at most two margins behind. -/
def Allowed (cfg : Config) (server : ServerId) (s : State) : Action → Prop
  | .extend time => (s.chunk.extendLocked cfg server time).isSome = true →
      (∀ counted ∈ s.counted cfg, counted ≤ time + 2 * cfg.leaseClockSkewMargin) ∧
      ∀ newer ∈ s.answers, newer ≤ time
  | .clear => s.executed = true → ∀ counted ∈ s.counted cfg,
      ∃ renewed ∈ s.renewed cfg, counted ≤ renewed + 2 * cfg.leaseClockSkewMargin
  | _ => True

/-! ## The invariant -/

structure Inv (cfg : Config) (server : ServerId) (s : State) : Prop where
  lease : ∀ l, s.chunk.lease = some l → l.primary = server ∧ l.revoked = false
  granting : s.executed = true → s.grant.isSome = true ∧ s.chunk.granting = true
  waiting : ∀ round attempt served, s.grant = some (.waiting round attempt served) →
    attempt.primary = server ∧ s.chunk.granting = true
  slot : ∀ end_, LeaseTable.heldUntil s.slot = some end_ →
    end_ - s.offset ≤ s.now + cfg.leaseDuration - cfg.leaseClockSkewMargin
  covered : s.executed = true ∨ ∀ counted ∈ s.counted cfg,
    ∃ renewed ∈ s.renewed cfg, counted ≤ renewed + 2 * cfg.leaseClockSkewMargin
  answers : ∀ time ∈ s.answers, time ≤ s.now ∧ ∃ renewed ∈ s.renewed cfg, time ≤ renewed
  handlers : ∀ time ∈ s.handlers, time ≤ s.now

section
variable {cfg : Config} {server : ServerId} {s s' : State} {time : TimePoint}

theorem counted_eq_some {counted : TimePoint} :
    s.counted cfg = some counted ↔ ∃ end_, LeaseTable.heldUntil s.slot = some end_ ∧
      s.there ≤ end_ ∧
      end_ - s.offset - cfg.leaseDuration + cfg.leaseClockSkewMargin = counted := by
  simp [State.counted, Option.bind_eq_some_iff]

/-- What the chunkserver counts from can only run out, while it is not written and time goes on. -/
theorem counted_later (slot : LeaseTable.heldUntil s'.slot = LeaseTable.heldUntil s.slot)
    (offset : s'.offset = s.offset) (now : s.now ≤ s'.now) {counted : TimePoint}
    (member : counted ∈ s'.counted cfg) : counted ∈ s.counted cfg := by
  obtain ⟨end_, held, fresh, is⟩ := counted_eq_some.mp member
  rw [slot] at held
  rw [offset] at is
  refine counted_eq_some.mpr ⟨end_, held, ?_, is⟩
  unfold there at fresh ⊢
  rw [offset] at fresh
  linarith

theorem Inv.still (inv : Inv cfg server s)
    (lease : s'.chunk.lease = s.chunk.lease) (granting : s'.chunk.granting = s.chunk.granting)
    (grant : s'.grant = s.grant) (executed : s'.executed = s.executed)
    (slot : LeaseTable.heldUntil s'.slot = LeaseTable.heldUntil s.slot)
    (offset : s'.offset = s.offset) (now : s.now ≤ s'.now)
    (answers : ∀ time ∈ s'.answers, time ∈ s.answers)
    (handlers : ∀ time ∈ s'.handlers, time ∈ s.handlers ∨ time = s'.now) :
    Inv cfg server s' := by
  have renewed : s'.renewed cfg = s.renewed cfg := by
    unfold State.renewed
    rw [lease]
  refine ⟨?_, ?_, ?_, ?_, ?_, ?_, ?_⟩
  · rw [lease]
    exact inv.lease
  · rw [executed, grant, granting]
    exact inv.granting
  · rw [grant, granting]
    exact inv.waiting
  · intro end_ held
    rw [slot] at held
    have bound := inv.slot end_ held
    rw [offset]
    linarith
  · rw [executed, renewed]
    exact inv.covered.imp_right fun covered counted member =>
      covered counted (counted_later slot offset now member)
  · intro t member
    rw [renewed]
    obtain ⟨past, covered⟩ := inv.answers t (answers t member)
    exact ⟨past.trans now, covered⟩
  · intro t member
    rcases handlers t member with old | rfl
    · exact (inv.handlers t old).trans now
    · exact le_rfl

theorem Inv.extend (inv : Inv cfg server s) (allowed : Allowed cfg server s (.extend time))
    (taken : s.extend cfg server time = some s') : Inv cfg server s' := by
  unfold State.extend at taken
  split at taken
  case isFalse => cases taken
  case isTrue pending =>
    dsimp only at taken
    split at taken
    case h_2 =>
      cases taken
      exact { inv with handlers := fun t member => inv.handlers t (List.mem_of_mem_erase member) }
    case h_1 chunk extended =>
      cases taken
      obtain ⟨close, newest⟩ := allowed (by rw [extended]; rfl)
      obtain ⟨l, lease, -, -, rfl⟩ := ChunkMeta.extendLocked_eq extended
      -- the record now counts from the clock of the handler
      have from_ : ∀ t ≤ time, ∃ renewed ∈ some (time + cfg.leaseDuration - cfg.leaseDuration),
          t ≤ renewed := by
        intro t before
        refine ⟨_, rfl, ?_⟩
        linarith
      refine ⟨?_, inv.granting, inv.waiting, inv.slot, .inr ?_, ?_, ?_⟩
      · intro l' lease'
        cases lease'
        exact inv.lease l lease
      · intro counted member
        have near := close counted member
        refine ⟨_, rfl, ?_⟩
        linarith
      · intro t member
        rcases List.mem_append.mp member with old | new
        · exact ⟨(inv.answers t old).1, from_ t (newest t old)⟩
        · obtain rfl := List.mem_singleton.mp new
          exact ⟨inv.handlers t pending, from_ t le_rfl⟩
      · exact fun t member => inv.handlers t (List.mem_of_mem_erase member)

theorem Inv.apply (inv : Inv cfg server s) (taken : s.apply cfg time = some s') :
    Inv cfg server s' := by
  unfold State.apply at taken
  split at taken
  case isFalse => cases taken
  case isTrue both =>
    cases taken
    obtain ⟨pending, inTime⟩ := both
    obtain ⟨-, renewed, record, before⟩ := inv.answers time pending
    have extended : ∀ {end_ : TimePoint}, LeaseTable.heldUntil (LeaseTable.extend
        cfg.leaseClockSkewMargin s.there cfg.leaseDuration s.slot) = some end_ →
        end_ - s.offset = s.now + cfg.leaseDuration - cfg.leaseClockSkewMargin := by
      intro end_ held
      rw [LeaseTable.heldUntil_extend, Option.map_eq_some_iff] at held
      obtain ⟨_, _, rfl⟩ := held
      unfold there
      linarith
    refine ⟨inv.lease, inv.granting, inv.waiting, ?_, .inr ?_, ?_, inv.handlers⟩
    · exact fun end_ held => (extended held).le
    · intro counted member
      obtain ⟨end_, held, -, rfl⟩ := counted_eq_some.mp member
      have bound := extended held
      refine ⟨renewed, record, ?_⟩
      dsimp only
      linarith
    · exact fun t member => inv.answers t (List.mem_of_mem_erase member)

theorem Inv.prepare {alive : ServerId → Bool} (inv : Inv cfg server s)
    (taken : s.prepare cfg server alive = some s') : Inv cfg server s' := by
  unfold State.prepare at taken
  split at taken
  case h_2 => cases taken
  case h_1 round grant =>
    split at taken
    · cases taken
      refine ⟨inv.lease, fun executed => ⟨rfl, (inv.granting executed).2⟩, ?_, inv.slot,
        inv.covered, inv.answers, inv.handlers⟩
      intro _ _ _ other
      cases other
    · rename_i attempt chunk prepared
      split at taken
      · rename_i primary
        cases taken
        obtain ⟨rfl, -⟩ := ChunkMeta.prepareLocked_eq prepared
        refine ⟨inv.lease, fun _ => ⟨rfl, rfl⟩, ?_, inv.slot, inv.covered, inv.answers,
          inv.handlers⟩
        intro _ _ _ same
        cases same
        exact ⟨primary, rfl⟩
      · cases taken

theorem Inv.grantLease {alive : ServerId → Bool} (inv : Inv cfg server s)
    (taken : s.grantLease cfg alive = some s') : Inv cfg server s' := by
  unfold State.grantLease at taken
  split at taken
  case h_2 => cases taken
  case h_1 round attempt grant =>
    cases taken
    obtain ⟨primary, granting⟩ := inv.waiting round attempt false grant
    refine ⟨inv.lease, fun _ => ⟨rfl, granting⟩, ?_, ?_, .inl rfl, inv.answers, inv.handlers⟩
    · intro _ _ _ same
      cases same
      exact ⟨primary, granting⟩
    · intro end_ held
      dsimp only at held
      rw [LeaseTable.heldUntil_grant] at held
      cases held
      dsimp only [there]
      linarith

theorem Inv.endRound {failed : List ServerId} (margin : 0 ≤ cfg.leaseClockSkewMargin)
    (inv : Inv cfg server s) (taken : s.endRound cfg server failed = some s') :
    Inv cfg server s' := by
  unfold State.endRound at taken
  split at taken
  case h_2 => cases taken
  case h_1 round attempt served grant =>
    obtain ⟨primary, granting⟩ := inv.waiting round attempt served grant
    split at taken
    · cases taken
    · split at taken
      · cases taken
        refine ⟨?_, (fun executed => by cases executed), (fun _ _ _ ended => by cases ended),
          inv.slot, .inr ?_, ?_, inv.handlers⟩
        · intro l lease
          cases lease
          exact ⟨primary, rfl⟩
        · intro counted member
          obtain ⟨end_, held, -, rfl⟩ := counted_eq_some.mp member
          have bound := inv.slot end_ held
          refine ⟨_, rfl, ?_⟩
          dsimp only
          linarith
        · intro t member
          have past := (inv.answers t member).1
          refine ⟨past, _, rfl, ?_⟩
          dsimp only
          linarith
      · cases taken
        obtain ⟨_, _, same⟩ := ChunkMeta.foldl_removeLocation failed s.chunk
        rw [same]
        refine ⟨inv.lease, fun _ => ⟨rfl, granting⟩, ?_, inv.slot, inv.covered, inv.answers,
          inv.handlers⟩
        intro _ _ _ other
        dsimp only at other
        split at other
        · cases other
        · cases other

theorem Inv.clear (inv : Inv cfg server s) (allowed : Allowed cfg server s .clear)
    (taken : s.clear = some s') : Inv cfg server s' := by
  unfold State.clear at taken
  split at taken
  · cases taken
    refine ⟨inv.lease, (fun executed => by cases executed), (fun _ _ _ ended => by cases ended),
      inv.slot, .inr ?_, inv.answers, inv.handlers⟩
    rcases inv.covered with executed | covered
    · exact allowed executed
    · exact covered
  · cases taken

theorem Inv.step {action : Action} (margin : 0 ≤ cfg.leaseClockSkewMargin)
    (inv : Inv cfg server s) (allowed : Allowed cfg server s action)
    (taken : s.step cfg server action = some s') : Inv cfg server s' := by
  cases action with
  | tick elapsed =>
      cases taken
      have later : s.now ≤ s.now + elapsed :=
        Int.le_add_of_nonneg_right (Int.natCast_nonneg elapsed)
      exact inv.still rfl rfl rfl rfl rfl rfl later (fun _ => id) fun _ => .inl
  | relocate locations =>
      cases taken
      exact inv.still rfl rfl rfl rfl rfl rfl le_rfl (fun _ => id) fun _ => .inl
  | mutate =>
      cases taken
      exact inv.still rfl rfl rfl rfl (LeaseTable.heldUntil_nextSerial s.slot) rfl le_rfl
        (fun _ => id) fun _ => .inl
  | grant =>
      simp only [State.step, Option.ite_none_right_eq_some, Option.some.injEq] at taken
      obtain ⟨idle, rfl⟩ := taken
      refine ⟨inv.lease, fun executed => ⟨rfl, (inv.granting executed).2⟩, ?_, inv.slot,
        inv.covered, inv.answers, inv.handlers⟩
      intro _ _ _ other
      cases other
  | prepare alive => exact inv.prepare taken
  | grantLease alive => exact inv.grantLease taken
  | endRound failed => exact inv.endRound margin taken
  | clear => exact inv.clear allowed taken
  | heartbeat =>
      simp only [State.step, Option.ite_none_right_eq_some, Option.some.injEq] at taken
      obtain ⟨_, rfl⟩ := taken
      exact inv.still rfl rfl rfl rfl rfl rfl le_rfl (fun _ => id) fun _ => .inl
  | handle =>
      simp only [State.step, Option.ite_none_right_eq_some, Option.some.injEq] at taken
      obtain ⟨_, rfl⟩ := taken
      refine inv.still rfl rfl rfl rfl rfl rfl le_rfl (fun _ => id) fun t member => ?_
      exact (List.mem_append.mp member).imp_right List.mem_singleton.mp
  | extend time => exact inv.extend allowed taken
  | apply time => exact inv.apply taken
  | lose time =>
      simp only [State.step, Option.ite_none_right_eq_some, Option.some.injEq] at taken
      obtain ⟨_, rfl⟩ := taken
      exact inv.still rfl rfl rfl rfl rfl rfl le_rfl (fun _ => List.mem_of_mem_erase)
        fun _ => .inl

theorem Initial.inv (initial : Initial s) : Inv cfg server s := by
  obtain ⟨now, offset, rfl⟩ := initial
  refine ⟨?_, ?_, ?_, ?_, .inr ?_, ?_, ?_⟩ <;>
    simp [State.counted, LeaseTable.heldUntil]

theorem Inv.heldBack (inv : Inv cfg server s) : HeldBack cfg server s := by
  intro secondaries checked
  obtain ⟨end_, held, fresh⟩ := LeaseTable.isPrimary_iff_check.mpr ⟨secondaries, checked⟩
  rcases inv.covered with executed | covered
  · exact .inl ⟨executed, inv.granting executed⟩
  · obtain ⟨renewed, record, close⟩ :=
      covered _ (counted_eq_some.mpr ⟨end_, held, fresh, rfl⟩)
    obtain ⟨l, lease, rfl⟩ := Option.map_eq_some_iff.mp record
    obtain ⟨primary, unrevoked⟩ := inv.lease l lease
    have unexpired : s.now ≤ l.expiry + cfg.leaseClockSkewMargin := by
      rw [there] at fresh
      linarith
    refine .inr ⟨l, lease, primary, unexpired, ?_⟩
    unfold ChunkMeta.isValid ChunkMeta.isPendingExpiry
    rw [lease]
    simp only [unrevoked, decide_eq_true unexpired, Bool.not_false, Bool.true_and, Bool.false_or]
    cases s.chunk.locations.contains l.primary with
    | true => exact .inl rfl
    | false => exact .inr rfl

instance (s : State) : (action : Action) → Decidable (Allowed cfg server s action)
  | .extend time =>
      inferInstanceAs (Decidable ((s.chunk.extendLocked cfg server time).isSome = true →
        (∀ counted ∈ s.counted cfg, counted ≤ time + 2 * cfg.leaseClockSkewMargin) ∧
        ∀ newer ∈ s.answers, newer ≤ time))
  | .clear =>
      inferInstanceAs (Decidable (s.executed = true → ∀ counted ∈ s.counted cfg,
        ∃ renewed ∈ s.renewed cfg, counted ≤ renewed + 2 * cfg.leaseClockSkewMargin))
  | .tick _ | .relocate _ | .mutate | .grant | .prepare _ | .grantLease _ | .endRound _
  | .heartbeat | .handle | .apply _ | .lose _ => isTrue trivial

end

end State

/-! ## Three leases of `p` -/

/-- A `GrantSerialized` whose first round succeeds. -/
def granted : List Action :=
  [.grant, .prepare fun _ => true, .grantLease fun _ => true, .endRound []]

/-- A chunk at `p` and `q`; the lease is granted to `p`. -/
def leased : List Action :=
  .relocate ((Std.ExtTreeMap.insert ∅ ['p'] 0).insert ['q'] 0) :: granted

/-- `p` uses the lease, and a heartbeat asks to extend it; its handler reads the clock at time 0. -/
def asked : List Action := leased ++ [.mutate, .heartbeat, .handle]

/-- The handler is 11 seconds late, after a regrant, and its answer is lost. -/
def overtaken : List Action :=
  asked ++ [.tick 11000000000] ++ granted ++ [.extend 0, .lose 0, .tick 54500000000]

/-- A regrant after 30 seconds: `p` acknowledges and `q` does not, `p` alone is not reached in the
second round, and nobody is left for a third. -/
def abandoned : List Action :=
  leased ++ [.tick 30000000000, .grant, .prepare fun _ => true, .grantLease fun _ => true,
    .endRound [['q']], .prepare fun _ => true, .endRound [['p']], .prepare fun _ => true, .clear,
    .tick 40000000000]

theorem fails_of_run (actions : List Action) (secondaries : List ServerId)
    (last : (run (State.step {} ['p']) { now := 0, offset := 0 } actions).map (fun s =>
      (LeaseTable.check s.there s.slot, s.executed, s.chunk.isValid {} s.now,
        s.chunk.isPendingExpiry {} s.now)) = some (.primary secondaries, false, false, false)) :
    ∃ s, Reachable (State.step {} ['p']) State.Initial (fun _ _ => True) s ∧
      ¬ State.HeldBack {} ['p'] s := by
  obtain ⟨s, ran, last⟩ := Option.map_eq_some_iff.mp last
  simp only [Prod.mk.injEq] at last
  obtain ⟨primary, committed, invalid, expired⟩ := last
  refine ⟨s, reachable_run_true ⟨0, 0, rfl⟩ ran, fun heldBack => ?_⟩
  rcases heldBack secondaries primary with ⟨executed, _⟩ | ⟨_, _, _, _, valid | pending⟩
  · cases committed.symm.trans executed
  · cases invalid.symm.trans valid
  · cases expired.symm.trans pending

example : ∃ s, Reachable (State.step {} ['p']) State.Initial (fun _ _ => True) s ∧
    ¬ State.HeldBack {} ['p'] s :=
  fails_of_run abandoned [['q']] (by decide +kernel)

/-- The handler is 2 seconds late, and its answer arrives 7 seconds later. A regrant after that
needs a second round without `q`. -/
def renewal : List Action :=
  asked ++ [.tick 2000000000, .extend 0, .tick 7000000000, .apply 0, .tick 1000000000, .grant,
    .prepare fun _ => true, .grantLease fun _ => true, .endRound [['q']], .prepare fun _ => true,
    .grantLease fun _ => true, .endRound [], .tick 55000000000]

end Gfs.Cluster.Renewal
