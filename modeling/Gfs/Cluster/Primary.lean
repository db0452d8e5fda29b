import Gfs.Cluster.Round
import Mathlib.Tactic.Linarith

/-!
# At most one primary

The books hold the lease that the table records and the leases that the master has lost track of
(`forgotten`). Two things are kept: all unexpired leases in the books and the round in progress are
for one chunkserver, and every lease that a chunkserver holds runs out before one in the books for
it, or belongs to the round in progress. An extension that is still on its way counts as a lease
until the latest time that it can reach.
-/

namespace Gfs.Cluster.Primary
open Chunkserver Master Lib.Transition

/-- No two chunkservers pass the lease check at the same time. -/
def SinglePrimary (s : Cluster) : Prop :=
  ∀ first second list list', LeaseTable.check s.now (s.replica first).slot = .primary list →
    LeaseTable.check s.now (s.replica second).slot = .primary list' → first = second

/-- The answer of a heartbeat is obeyed in time. -/
def Prompt (cfg : Config) (s : Cluster) : Action → Prop
  | .obey server => ∀ sender ∈ s.senders server, ∀ a ∈ sender.answer?,
      s.now ≤ a.time + 2 * cfg.leaseClockSkewMargin
  | _ => True

/-- A round is for the only chunkserver with an unexpired lease in the books; an extension that is
honoured finds the lease unexpired and does not shorten it; a `GrantLease` ends only while its round
waits for it. -/
def Allowed (cfg : Config) (s : Cluster) : Action → Prop
  | .grantStep => ∀ g ∈ s.grant, g.phase = .preparing → ∀ m ∈ s.chunk,
      ∀ pair ∈ m.prepareLocked cfg s.alive, ∀ book ∈ s.books,
        book.1 = pair.1.primary ∨ book.2 + cfg.leaseClockSkewMargin < s.now
  | .heartBeat b time => b.extend = true → ∀ m ∈ s.chunk, ∀ l ∈ m.lease, l.primary = b.server →
      l.revoked = false → time ≤ l.expiry + cfg.leaseClockSkewMargin →
        s.now ≤ l.expiry + cfg.leaseClockSkewMargin ∧ l.expiry ≤ time + cfg.leaseDuration
  | .complete _ (.grant _ _ _ number) => s.round? = some number
  | _ => True

/-! ## The books -/

def Trying (s : Core) (server : ServerId) : Prop :=
  ∃ g attempt, s.grant = some g ∧ g.phase.trying? = some attempt ∧ attempt.primary = server

/-- The `GrantLease` of the round in progress has been executed. -/
def Executing (s : Core) (server : ServerId) : Prop :=
  ∃ attempt list number, Waiting s attempt list number ∧ attempt.primary = server ∧
    number ∈ s.executed

def Owner (cfg : Config) (s : Core) (server : ServerId) : Prop :=
  Trying s server ∨ ∃ expiry, (server, expiry) ∈ s.books ∧ s.now ≤ expiry + cfg.leaseClockSkewMargin

/-- A lease of `server` that lasts until `end_` is accounted for. -/
def Covered (cfg : Config) (s : Core) (server : ServerId) (end_ : TimePoint) : Prop :=
  end_ < s.now ∨ Executing s server ∨
    ∃ expiry, (server, expiry) ∈ s.books ∧ end_ ≤ expiry + cfg.leaseClockSkewMargin

/-- What a step does to the books and to the round in progress. -/
inductive Books (cfg : Config) (s : Cluster) (core : Core) : Action → Prop
  | kept {action : Action} : s.now ≤ core.now →
      (∀ server expiry, (server, expiry) ∈ core.books → (server, expiry) ∈ s.books) →
      (∀ server expiry, (server, expiry) ∈ s.books → (server, expiry) ∈ core.books ∨
        expiry + cfg.leaseClockSkewMargin < s.now ∨ s.held server = none) →
      (∀ server, Trying core server → Trying s.toCore server) →
      (∀ server, Executing s.toCore server → Executing core server) → Books cfg s core action
  | prepare {g : GrantCall} {m m' : ChunkMeta} {attempt : Attempt} : core.now = s.now →
      core.books = s.books → s.grant = some g → g.phase = .preparing → s.chunk = some m →
      m.prepareLocked cfg s.alive = some (attempt, m') →
      (∀ server, Trying core server → server = attempt.primary) → Books cfg s core .grantStep
  | extend {b : Beat} {time : TimePoint} {m : ChunkMeta} {l : Lease} : core.now = s.now →
      (b, time) ∈ s.handling → s.chunk = some m → m.lease = some l → b.extend = true →
      l.primary = b.server → l.revoked = false → time ≤ l.expiry + cfg.leaseClockSkewMargin →
      core.recorded = some (b.server, time + cfg.leaseDuration) → core.forgotten = s.forgotten →
      core.grant = s.grant → core.executed = s.executed → Books cfg s core (.heartBeat b time)
  | commit {action : Action} {attempt : Attempt} {list : List ServerId} {number : Nat} :
      core.now = s.now → Waiting s.toCore attempt list number →
      core.recorded = some (attempt.primary, s.now + cfg.leaseDuration) →
      core.forgotten = s.forgotten → (∀ server, ¬ Trying core server) → Books cfg s core action
  | lose {action : Action} {attempt : Attempt} {list : List ServerId} {number : Nat} :
      core.now = s.now → Waiting s.toCore attempt list number → core.recorded = s.recorded →
      core.forgotten = s.forgotten ++ s.lost cfg attempt number →
      (∀ server, ¬ Trying core server) → Books cfg s core action

section
variable {cfg : Config} {s : Cluster} {action : Action} {core : Core}

theorem mem_books {s : Core} {server : ServerId} {expiry : TimePoint} :
    (server, expiry) ∈ s.books ↔
      s.recorded = some (server, expiry) ∨ (server, expiry) ∈ s.forgotten := by
  simp [Core.books]

theorem Executing.trying {server : ServerId} {s : Core} (executing : Executing s server) :
    Trying s server := by
  obtain ⟨attempt, list, number, ⟨g, grant, phase⟩, primary, _⟩ := executing
  exact ⟨g, attempt, grant, by rw [phase]; rfl, primary⟩

theorem books_eq (recorded : core.recorded = s.recorded) (forgotten : core.forgotten = s.forgotten) :
    core.books = s.books := by
  rw [Core.books, Core.books, recorded, forgotten]

theorem Books.still (now : s.now ≤ core.now) (recorded : core.recorded = s.recorded)
    (forgotten : core.forgotten = s.forgotten) (grant : core.grant = s.grant)
    (executed : ∀ number ∈ s.executed, number ∈ core.executed) : Books cfg s core action := by
  have same := books_eq recorded forgotten
  refine .kept now (fun _ _ => same ▸ id) (fun _ _ member => .inl (same ▸ member)) ?_ ?_
  · rintro server ⟨g, attempt, tries⟩
    exact ⟨g, attempt, grant ▸ tries⟩
  · rintro server ⟨attempt, list, number, ⟨g, waits⟩, primary, member⟩
    exact ⟨attempt, list, number, ⟨g, grant ▸ waits⟩, primary, executed number member⟩

theorem Books.phase {g g' : GrantCall} (now : s.now ≤ core.now)
    (recorded : core.recorded = s.recorded) (forgotten : core.forgotten = s.forgotten)
    (before : s.grant = some g) (notWaiting : g.phase.number? = none)
    (after : core.grant = some g') (tries : ∀ attempt, g'.phase.trying? = some attempt →
      g.phase.trying? = some attempt) : Books cfg s core action := by
  have same := books_eq recorded forgotten
  refine .kept now (fun _ _ => same ▸ id) (fun _ _ member => .inl (same ▸ member)) ?_ ?_
  · rintro server ⟨_, attempt, grant, tried, primary⟩
    cases after.symm.trans grant
    exact ⟨g, attempt, before, tries attempt tried, primary⟩
  · rintro server ⟨attempt, list, number, ⟨_, grant, waits⟩, _⟩
    cases before.symm.trans grant
    rw [waits] at notWaiting
    cases notWaiting

theorem Books.reset {server : ServerId} {expiry : TimePoint} (now : s.now ≤ core.now)
    (before : s.recorded = some (server, expiry)) (after : core.recorded = none)
    (old : ∀ book ∈ s.forgotten, book ∈ core.forgotten)
    (new : ∀ book ∈ core.forgotten, book ∈ s.forgotten ∨ book = (server, expiry))
    (through : (server, expiry) ∈ core.forgotten ∨
      expiry + cfg.leaseClockSkewMargin < s.now ∨ s.held server = none)
    (grant : core.grant = s.grant) (executed : core.executed = s.executed) :
    Books cfg s core action := by
  refine .kept now ?_ ?_ ?_ ?_
  · intro other end_ member
    rcases mem_books.mp member with recorded | lost
    · simp [after] at recorded
    · rcases new _ lost with early | same
      · exact mem_books.mpr (.inr early)
      · cases same
        exact mem_books.mpr (.inl before)
  · intro other end_ member
    rcases mem_books.mp member with recorded | lost
    · cases before.symm.trans recorded
      rcases through with kept | gone
      · exact .inl (mem_books.mpr (.inr kept))
      · exact .inr gone
    · exact .inl (mem_books.mpr (.inr (old _ lost)))
  · rintro other ⟨g, attempt, tries⟩
    exact ⟨g, attempt, grant ▸ tries⟩
  · rintro other ⟨attempt, list, number, ⟨g, waits⟩, primary, member⟩
    exact ⟨attempt, list, number, ⟨g, grant ▸ waits⟩, primary, executed ▸ member⟩

theorem Books.drop (now : s.now ≤ core.now) (gone : core.chunk = none)
    (forgotten : core.forgotten = s.forgotten ++ s.recorded.toList) (grant : core.grant = s.grant)
    (executed : core.executed = s.executed) : Books cfg s core action := by
  have after : core.recorded = none := by rw [Core.recorded, gone]; rfl
  obtain none | ⟨⟨server, expiry⟩, before⟩ := Option.eq_none_or_eq_some s.recorded
  · refine .still now (after.trans none.symm) ?_ grant fun _ => executed ▸ id
    rw [forgotten, none]
    exact List.append_nil _
  · rw [before] at forgotten
    refine .reset now before after (fun _ member => ?_) (fun book member => ?_) (.inl ?_) grant
      executed
    · rw [forgotten]
      exact List.mem_append_left _ member
    · rw [forgotten] at member
      rcases List.mem_append.mp member with old | new
      · exact .inl old
      · exact .inr (List.mem_singleton.mp new)
    · rw [forgotten]
      exact List.mem_append_right _ (List.mem_singleton.mpr rfl)

theorem Books.release {m : ChunkMeta} {l : Lease} (now : s.now ≤ core.now)
    (chunk : s.chunk = some m) (lease : m.lease = some l) (after : core.recorded = none)
    (forgotten : core.forgotten = s.forgotten ++ s.dropped l) (grant : core.grant = s.grant)
    (executed : core.executed = s.executed) : Books cfg s core action := by
  have before : s.recorded = some (l.primary, l.expiry) := by simp [Core.recorded, chunk, lease]
  refine .reset now before after (fun _ member => ?_) (fun book member => ?_) ?_ grant executed
  · rw [forgotten]
    exact List.mem_append_left _ member
  · rw [forgotten] at member
    rcases List.mem_append.mp member with old | new
    · exact .inl old
    · unfold Cluster.dropped at new
      split at new
      · exact .inr (List.mem_singleton.mp new)
      · cases new
  · rw [forgotten, Cluster.dropped]
    split
    · exact .inl (List.mem_append_right _ (List.mem_singleton.mpr rfl))
    · rename_i free
      exact .inr (.inr (by simpa using free))

theorem recorded_eq {m m' : ChunkMeta} (before : s.chunk = some m) (after : core.chunk = some m')
    (lease : m'.lease.map (fun l => (l.primary, l.expiry)) =
      m.lease.map fun l => (l.primary, l.expiry)) : core.recorded = s.recorded := by
  simp [Core.recorded, before, after, lease]

theorem recorded_map {f : ChunkMeta → ChunkMeta} (after : core.chunk = s.chunk.map f)
    (lease : ∀ m, (f m).lease = m.lease) : core.recorded = s.recorded := by
  rw [Core.recorded, Core.recorded, after, Option.bind_map]
  congr 1
  funext m
  simp [lease]

theorem Books.of_moves (moves : Moves cfg s action core) (born : Born s.toCore) :
    Books cfg s core action := by
  cases moves with
  | @tick elapsed =>
      have later : s.group.now ≤ s.group.now + elapsed :=
        Int.le_add_of_nonneg_right (Int.natCast_nonneg elapsed)
      exact .still later rfl rfl rfl fun _ => id
  | mutate _ keeps => exact .still keeps.now.ge rfl rfl rfl fun _ => id
  | grantLease => exact .still le_rfl rfl rfl rfl fun _ => List.mem_append_left _
  | heartBeat _ chunk _ lease =>
      exact .still le_rfl (recorded_eq chunk rfl (by rw [lease])) rfl rfl fun _ => id
  | heartBeatExtend pending chunk _ lease extend unrevoked fresh primary lease' =>
      refine .extend rfl pending chunk lease extend primary unrevoked fresh ?_ rfl rfl rfl
      simp [Core.recorded, lease', primary]
  | sweep chunk => exact .still le_rfl (recorded_eq chunk rfl rfl) rfl rfl fun _ => id
  | create fresh =>
      have none : s.chunk = none := by
        obtain none | ⟨m, some⟩ := Option.eq_none_or_eq_some s.chunk
        · exact none
        · simp [born.chunk m some] at fresh
      exact .still le_rfl (by simp [Core.recorded, none]) rfl rfl fun _ => id
  | createFailed => exact .drop le_rfl rfl rfl rfl rfl
  | created _ chunk => exact .still le_rfl (recorded_eq chunk rfl rfl) rfl rfl fun _ => id
  | dropChunk => exact .drop le_rfl rfl rfl rfl rfl
  | removeFile => exact .still le_rfl (recorded_map rfl fun _ => rfl) rfl rfl fun _ => id
  | copyOnWrite chunk => exact .still le_rfl (recorded_eq chunk rfl rfl) rfl rfl fun _ => id
  | @expire _ m l chunk lease late =>
      have before : s.recorded = some (l.primary, l.expiry) := by
        rw [Core.recorded, chunk, Option.bind_some, lease, Option.map_some]
      exact .reset le_rfl before rfl (fun _ => id) (fun _ => .inl) (.inr (.inl late)) rfl rfl
  | startGrant free =>
      refine .kept le_rfl (fun _ _ => id) (fun _ _ => .inl) ?_ ?_
      · rintro server ⟨_, _, grant, tries, _⟩
        cases grant
        cases tries
      · rintro server ⟨_, _, _, ⟨_, grant, _⟩, _⟩
        simp [free] at grant
  | prepareFailed grant phase =>
      exact .phase le_rfl rfl rfl grant (by rw [phase]; rfl) rfl fun _ tries => by cases tries
  | prepare grant phase chunk prepared =>
      refine .prepare rfl ?_ grant phase chunk prepared ?_
      · obtain ⟨rfl, _⟩ := ChunkMeta.prepareLocked_eq prepared
        exact books_eq (recorded_eq chunk rfl rfl) rfl
      · rintro server ⟨_, _, grant, tries, primary⟩
        cases grant
        cases tries
        exact primary.symm
  | resolve grant phase =>
      refine .phase le_rfl rfl rfl grant (by rw [phase]; rfl) rfl fun attempt tries => ?_
      rw [phase]
      exact tries
  | send grant phase =>
      refine .phase le_rfl rfl rfl grant (by rw [phase]; rfl) rfl fun attempt tries => ?_
      rw [phase]
      exact tries
  | loseChunk grant phase =>
      refine .lose rfl ⟨_, grant, phase⟩ rfl rfl ?_
      rintro server ⟨_, _, grant, tries, _⟩
      cases grant
      cases tries
  | failRound grant phase chunk =>
      refine .lose rfl ⟨_, grant, phase⟩ (recorded_eq chunk rfl rfl) rfl ?_
      rintro server ⟨_, _, grant, tries, _⟩
      cases grant
      cases tries
  | commit grant phase =>
      refine .commit rfl ⟨_, grant, phase⟩ rfl rfl ?_
      rintro server ⟨_, _, grant, tries, _⟩
      cases grant
      cases tries
  | clear grant phase =>
      exact .phase le_rfl (recorded_map rfl fun _ => rfl) rfl grant (by rw [phase]; rfl) rfl
        fun _ tries => by cases tries
  | return_ grant phase =>
      refine .kept le_rfl (fun _ _ => id) (fun _ _ => .inl) ?_ ?_
      · rintro server ⟨_, _, grant, _⟩
        cases grant
      · rintro server ⟨_, _, _, ⟨_, grant', phase'⟩, _⟩
        cases grant.symm.trans grant'
        cases phase.symm.trans phase'
  | revoke chunk lease =>
      exact .still le_rfl (recorded_eq chunk rfl (by rw [lease]; rfl)) rfl rfl fun _ => id
  | markRevoked chunk lease =>
      exact .still le_rfl (recorded_eq chunk rfl (by rw [lease]; rfl)) rfl rfl fun _ => id
  | endRevoke _ chunk lease => exact .release le_rfl chunk lease rfl rfl rfl rfl
  | snapshotFinish chunk =>
      exact .still le_rfl (recorded_map chunk fun _ => rfl) rfl rfl fun _ => id
  | snapshotReset chunk lease => exact .release le_rfl chunk lease rfl rfl rfl rfl
  | _ => exact .still le_rfl rfl rfl rfl fun _ => id

/-! ## The invariant -/

structure Inv (cfg : Config) (s : Core) : Prop where
  single : ∀ first second, Owner cfg s first → Owner cfg s second → first = second
  slot : ∀ server end_, s.held server = some end_ →
    Covered cfg s server end_ ∧ end_ ≤ s.now + cfg.leaseDuration - cfg.leaseClockSkewMargin
  flight : ∀ server time, Extending s server time → time ≤ s.now ∧
    ((s.held server).isSome = true →
      Covered cfg s server (time + cfg.leaseDuration + cfg.leaseClockSkewMargin))
  handling : ∀ b time, (b, time) ∈ s.handling → time ≤ s.now

theorem Books.now_le (books : Books cfg s core action) : s.now ≤ core.now := by
  cases books with
  | kept now => exact now
  | prepare now => exact now.ge
  | extend now => exact now.ge
  | commit now => exact now.ge
  | lose now => exact now.ge

theorem Inv.single_move (inv : Inv cfg s.toCore) (allowed : Allowed cfg s action)
    (books : Books cfg s core action) {first second : ServerId} (one : Owner cfg core first)
    (two : Owner cfg core second) : first = second := by
  -- it is enough that the owners were owners before
  have before : (∀ server, Owner cfg core server → Owner cfg s.toCore server) → first = second :=
    fun old => inv.single first second (old first one) (old second two)
  cases books with
  | kept now fewer _ trying _ =>
      refine before fun server owner => ?_
      rcases owner with tries | ⟨expiry, booked, fresh⟩
      · exact .inl (trying server tries)
      · exact .inr ⟨expiry, fewer server expiry booked, now.trans fresh⟩
  | @prepare g m m' attempt now same grant phase chunk prepared trying =>
      have primary : ∀ server, Owner cfg core server → server = attempt.primary := by
        rintro server (tries | ⟨expiry, booked, fresh⟩)
        · exact trying server tries
        · rw [same] at booked
          rw [now] at fresh
          rcases allowed g grant phase m chunk _ prepared _ booked with mine | late
          · exact mine
          · exact absurd fresh (not_le.mpr late)
      rw [primary first one, primary second two]
  | @extend b time m l now pending chunk lease extend primary unrevoked valid recorded forgotten grant
      executed =>
      refine before fun server owner => ?_
      obtain ⟨fresh, _⟩ := allowed extend m chunk l lease primary unrevoked valid
      rcases owner with ⟨g, attempt, tries⟩ | ⟨expiry, booked, unexpired⟩
      · exact .inl ⟨g, attempt, grant ▸ tries⟩
      · rcases mem_books.mp booked with mine | lost
        · cases recorded.symm.trans mine
          refine .inr ⟨l.expiry, mem_books.mpr (.inl ?_), fresh⟩
          simp [Core.recorded, chunk, lease, primary]
        · exact .inr ⟨expiry, mem_books.mpr (.inr (forgotten ▸ lost)), now ▸ unexpired⟩
  | @commit _ attempt list number now waiting recorded forgotten idle =>
      refine before fun server owner => ?_
      rcases owner with tries | ⟨expiry, booked, unexpired⟩
      · exact absurd tries (idle server)
      · rcases mem_books.mp booked with mine | lost
        · cases recorded.symm.trans mine
          obtain ⟨g, grant, phase⟩ := waiting
          exact .inl ⟨g, attempt, grant, by rw [phase]; rfl, rfl⟩
        · exact .inr ⟨expiry, mem_books.mpr (.inr (forgotten ▸ lost)), now ▸ unexpired⟩
  | @lose _ attempt list number now waiting recorded forgotten idle =>
      refine before fun server owner => ?_
      rcases owner with tries | ⟨expiry, booked, unexpired⟩
      · exact absurd tries (idle server)
      · rcases mem_books.mp booked with mine | lost
        · exact .inr ⟨expiry, mem_books.mpr (.inl (recorded ▸ mine)), now ▸ unexpired⟩
        · rw [forgotten] at lost
          rcases List.mem_append.mp lost with old | new
          · exact .inr ⟨expiry, mem_books.mpr (.inr old), now ▸ unexpired⟩
          · unfold Cluster.lost at new
            split at new
            · cases List.mem_singleton.mp new
              obtain ⟨g, grant, phase⟩ := waiting
              exact .inl ⟨g, attempt, grant, by rw [phase]; rfl, rfl⟩
            · cases new

theorem Inv.covered_move (inv : Inv cfg s.toCore) (allowed : Allowed cfg s action)
    (books : Books cfg s core action) {server : ServerId} {end_ : TimePoint}
    (holds : (s.held server).isSome = true)
    (bound : end_ ≤ s.now + cfg.leaseDuration + cfg.leaseClockSkewMargin)
    (covered : Covered cfg s.toCore server end_) : Covered cfg core server end_ := by
  rcases covered with past | executing | ⟨expiry, booked, within⟩
  · exact .inl (past.trans_le books.now_le)
  · cases books with
    | kept _ _ _ _ kept => exact .inr (.inl (kept server executing))
    | prepare _ _ grant phase =>
        obtain ⟨_, _, _, ⟨_, grant', phase'⟩, _⟩ := executing
        cases grant.symm.trans grant'
        cases phase.symm.trans phase'
    | extend _ _ _ _ _ _ _ _ _ _ grant executed =>
        obtain ⟨attempt, list, number, ⟨g, waits⟩, primary, member⟩ := executing
        exact .inr (.inl ⟨attempt, list, number, ⟨g, grant ▸ waits⟩, primary, executed ▸ member⟩)
    | commit _ waiting recorded =>
        obtain ⟨_, _, _, waiting', rfl, _⟩ := executing
        obtain ⟨rfl, _, _⟩ := waiting.unique waiting'
        exact .inr (.inr ⟨_, mem_books.mpr (.inl recorded), bound⟩)
    | @lose _ attempt list number _ waiting _ forgotten =>
        obtain ⟨_, _, _, waiting', rfl, member⟩ := executing
        obtain ⟨rfl, _, rfl⟩ := waiting.unique waiting'
        refine .inr (.inr ⟨s.now + cfg.leaseDuration, mem_books.mpr (.inr ?_), bound⟩)
        rw [forgotten, Cluster.lost, if_pos member]
        exact List.mem_append_right _ (List.mem_singleton.mpr rfl)
  · cases books with
    | kept now _ more =>
        rcases more server expiry booked with still | late | free
        · exact .inr (.inr ⟨expiry, still, within⟩)
        · exact .inl ((within.trans_lt late).trans_le now)
        · simp [free] at holds
    | prepare _ same => exact .inr (.inr ⟨expiry, same ▸ booked, within⟩)
    | @extend b time m l _ _ chunk lease extend primary unrevoked valid recorded forgotten =>
        obtain ⟨_, longer⟩ := allowed extend m chunk l lease primary unrevoked valid
        rcases mem_books.mp booked with mine | lost
        · simp only [Core.recorded, chunk, lease, primary, Option.bind_some, Option.map_some,
            Option.some.injEq, Prod.mk.injEq] at mine
          obtain ⟨rfl, rfl⟩ := mine
          exact .inr (.inr ⟨_, mem_books.mpr (.inl recorded), by linarith⟩)
        · exact .inr (.inr ⟨expiry, mem_books.mpr (.inr (forgotten ▸ lost)), within⟩)
    | @commit _ attempt _ _ now waiting recorded forgotten =>
        rcases mem_books.mp booked with mine | lost
        · -- the lease that is overwritten has run out or is the primary's
          rcases lt_or_ge (expiry + cfg.leaseClockSkewMargin) s.now with late | fresh
          · exact .inl (now ▸ within.trans_lt late)
          · obtain ⟨g, grant, phase⟩ := waiting
            obtain rfl := inv.single server attempt.primary
              (.inr ⟨expiry, booked, fresh⟩) (.inl ⟨g, attempt, grant, by rw [phase]; rfl, rfl⟩)
            exact .inr (.inr ⟨_, mem_books.mpr (.inl recorded), bound⟩)
        · exact .inr (.inr ⟨expiry, mem_books.mpr (.inr (forgotten ▸ lost)), within⟩)
    | lose _ _ recorded forgotten =>
        refine .inr (.inr ⟨expiry, mem_books.mpr ?_, within⟩)
        rcases mem_books.mp booked with mine | lost
        · exact .inl (recorded ▸ mine)
        · exact .inr (forgotten ▸ List.mem_append_left _ lost)

theorem Covered.mono {server : ServerId} {end_ end' : TimePoint}
    (covered : Covered cfg s.toCore server end_) (earlier : end' ≤ end_) :
    Covered cfg s.toCore server end' := by
  rcases covered with past | executing | ⟨expiry, booked, within⟩
  · exact .inl (earlier.trans_lt past)
  · exact .inr (.inl executing)
  · exact .inr (.inr ⟨expiry, booked, earlier.trans within⟩)

/-- A `GrantLease` that ends is the one of the round that waits. -/
theorem executing_of_complete {server : ServerId} {version : Nat} {lease : Duration}
    {secondaries : List ServerId} {number : Nat} (rounds : Rounds cfg s.toCore)
    (allowed : Allowed cfg s (.complete server (.grant version lease secondaries number)))
    (pending : .grant version lease secondaries number ∈ (s.replica server).halves)
    (grant : core.grant = s.grant) (executed : core.executed = s.executed ++ [number]) :
    lease = cfg.leaseDuration ∧ Executing core server := by
  obtain ⟨g, found, number?⟩ := Option.bind_eq_some_iff.mp allowed
  obtain ⟨attempt, list, phase⟩ := number?_eq_some.mp number?
  have waiting : Waiting s.toCore attempt list number := ⟨g, found, phase⟩
  rcases ((rounds.half server _ pending).2 attempt list waiting).cases with
    ⟨primary, same⟩ | ⟨_, other⟩
  · cases same
    refine ⟨rfl, attempt, secondaries, number, ⟨g, grant ▸ found, phase⟩, primary.symm, ?_⟩
    rw [executed]
    exact List.mem_append_right _ (List.mem_singleton.mpr rfl)
  · cases other

theorem inv_step (margin : 0 ≤ cfg.leaseClockSkewMargin)
    (known : Born s.toCore ∧ Rounds cfg s.toCore) (inv : Inv cfg s.toCore)
    (prompt : Prompt cfg s action) (allowed : Allowed cfg s action)
    (moves : Moves cfg s action core) : Inv cfg core := by
  have books := Books.of_moves moves known.1
  have later := books.now_le
  constructor
  · exact fun _ _ => inv.single_move allowed books
  · intro server end_ holds
    rcases moves.held_cases holds with
      same | ⟨version, lease, secondaries, number, rfl, pending, grant, executed, now, rfl⟩ |
        ⟨a, rfl, sender, extended, holds', now, rfl⟩
    · obtain ⟨covered, bound⟩ := inv.slot server end_ same
      exact ⟨inv.covered_move allowed books (same ▸ rfl) (by linarith) covered, by linarith⟩
    · obtain ⟨rfl, executing⟩ := executing_of_complete known.2 allowed pending grant executed
      exact ⟨.inr (.inl executing), now ▸ le_rfl⟩
    · obtain ⟨_, covered⟩ := inv.flight server a.time (.inr ⟨_, a, sender, rfl, extended, rfl⟩)
      have inTime := prompt _ sender a rfl
      have earlier : Covered cfg s.toCore server
          (s.now + cfg.leaseDuration - cfg.leaseClockSkewMargin) :=
        (covered holds').mono (by linarith)
      exact ⟨inv.covered_move allowed books holds' (by linarith) earlier, now ▸ le_rfl⟩
  · intro server time extending
    rcases moves.extending_cases extending with old | ⟨b, rfl, pending, recorded⟩
    · obtain ⟨past, covered⟩ := inv.flight server time old
      refine ⟨past.trans later, fun holds => ?_⟩
      obtain ⟨end_, holds⟩ := Option.isSome_iff_exists.mp holds
      rcases moves.held_cases holds with
        same | ⟨_, _, _, _, rfl, pending, grant, executed, _⟩ | ⟨_, _, _, _, holds', _⟩
      · exact inv.covered_move allowed books (same ▸ rfl) (by linarith) (covered (same ▸ rfl))
      · exact .inr (.inl (executing_of_complete known.2 allowed pending grant executed).2)
      · exact inv.covered_move allowed books holds' (by linarith) (covered holds')
    · exact ⟨(inv.handling b time pending).trans later,
        fun _ => .inr (.inr ⟨_, mem_books.mpr (.inl recorded), le_rfl⟩)⟩
  · intro b time member
    rcases moves.handling_cases member with old | rfl
    · exact (inv.handling b time old).trans later
    · exact later

end

theorem Initial.inv {cfg : Config} {s : Cluster} (initial : Initial s) : Inv cfg s.toCore := by
  obtain ⟨now, registry, buffers, rfl⟩ := initial
  constructor
  · rintro first second (⟨_, _, none, _⟩ | ⟨_, booked, _⟩)
    · cases none
    · cases booked
  · intro server end_ holds
    cases holds
  · rintro server time (⟨_, none, _⟩ | ⟨_, _, none, _⟩)
    · cases none
    · cases none
  · intro b time member
    cases member

theorem Inv.singlePrimary {cfg : Config} {s : Cluster} (inv : Inv cfg s.toCore) :
    SinglePrimary s := by
  have owner : ∀ server list, LeaseTable.check s.now (s.replica server).slot = .primary list →
      Owner cfg s.toCore server := by
    intro server list checked
    obtain ⟨end_, holds, fresh⟩ := LeaseTable.isPrimary_iff_check.mpr ⟨list, checked⟩
    rcases (inv.slot server end_ holds).1 with past | executing | ⟨expiry, booked, within⟩
    · exact absurd fresh (not_le.mpr past)
    · exact .inl executing.trying
    · exact .inr ⟨expiry, booked, fresh.trans within⟩
  exact fun first second _ _ one two => inv.single first second (owner _ _ one) (owner _ _ two)

theorem singlePrimary_of_allowed {cfg : Config} {s : Cluster}
    (margin : 0 ≤ cfg.leaseClockSkewMargin)
    (reachable : Reachable (step cfg) Initial
      (fun s action => Prompt cfg s action ∧ Allowed cfg s action) s) : SinglePrimary s := by
  have inv : Inv cfg s.toCore := by
    refine reachable.invariant_over (fun _ => always) (fun _ => Initial.inv) ?_
    exact fun _ _ _ known inv allowed taken =>
      inv_step margin known inv allowed.1 allowed.2 (step_moves taken)
  exact inv.singlePrimary

/-! ## Two runs -/

instance (cfg : Config) (s : Cluster) (action : Action) : Decidable (Prompt cfg s action) :=
  match action with
  | .obey server =>
      inferInstanceAs (Decidable (∀ sender ∈ s.senders server, ∀ a ∈ sender.answer?,
        s.now ≤ a.time + 2 * cfg.leaseClockSkewMargin))
  | .tick _ | .push _ _ _ | .client _ _ | .deliver _ | .advance _ _ | .acceptForward _
  | .timeoutForward _ _ | .finish _ | .markCorrupt _ | .execute _ _ _ | .complete _ _ | .accept _
  | .timeout _ _ | .compose _ | .receive _ | .giveUp _ | .touch _ | .heartBeat _ _ | .sweep
  | .sweepLocations | .create _ _ _ _ | .endCreate | .dropChunk | .removeFile _ | .find _ _
  | .findStep _ _ | .regrant | .grantStep | .revoke _ _ | .endRevoke _ | .snapshot _
  | .snapshotFinish _ _ => isTrue trivial

instance (cfg : Config) (s : Cluster) (action : Action) : Decidable (Allowed cfg s action) :=
  match action with
  | .grantStep =>
      inferInstanceAs (Decidable (∀ g ∈ s.grant, g.phase = .preparing → ∀ m ∈ s.chunk,
        ∀ pair ∈ m.prepareLocked cfg s.alive, ∀ book ∈ s.books,
          book.1 = pair.1.primary ∨ book.2 + cfg.leaseClockSkewMargin < s.now))
  | .heartBeat b time =>
      inferInstanceAs (Decidable (b.extend = true → ∀ m ∈ s.chunk, ∀ l ∈ m.lease,
        l.primary = b.server → l.revoked = false → time ≤ l.expiry + cfg.leaseClockSkewMargin →
          s.now ≤ l.expiry + cfg.leaseClockSkewMargin ∧ l.expiry ≤ time + cfg.leaseDuration))
  | .complete _ (.grant _ _ _ number) => inferInstanceAs (Decidable (s.round? = some number))
  | .complete _ (.update _ _) | .tick _ | .push _ _ _ | .client _ _ | .deliver _ | .advance _ _
  | .acceptForward _ | .timeoutForward _ _ | .finish _ | .markCorrupt _ | .execute _ _ _
  | .accept _ | .timeout _ _ | .compose _ | .receive _ | .giveUp _ | .obey _ | .touch _ | .sweep
  | .sweepLocations | .create _ _ _ _ | .endCreate | .dropChunk | .removeFile _ | .find _ _
  | .findStep _ _ | .regrant | .revoke _ _ | .endRevoke _ | .snapshot _
  | .snapshotFinish _ _ => isTrue trivial

/-- The `GrantLease` of the first round succeeds but its answer is lost, and the second round is for
the other chunkserver. -/
def grantLost : List Action :=
  addChunk {} fileA [serverP, serverQ] 0 ++ requestLease fileA ++ sendRound [serverQ] ++
    (serve {} ⟨1, serverP, .grantLease 2 [serverQ]⟩).dropLast ++
    serve {} ⟨1, serverQ, .updateVersion 2⟩ ++ [.timeout 1 serverP, .grantStep] ++
    sendRound [] ++ serve {} ⟨2, serverQ, .grantLease 2 []⟩ ++ [.grantStep]

theorem singlePrimary_fails :
    ∃ s, Reachable (step {}) Initial (Prompt {}) s ∧ ¬ SinglePrimary s := by
  obtain ⟨s, ran⟩ := Option.isSome_iff_exists.mp
    (by decide +kernel : (run (step {}) twoServers grantLost).isSome = true)
  have last : (run (step {}) twoServers grantLost).map (fun s =>
      (LeaseTable.check s.now (s.replica serverP).slot,
        LeaseTable.check s.now (s.replica serverQ).slot)) =
      some (.primary [serverQ], .primary []) := by decide +kernel
  simp only [ran, Option.map_some, Option.some.injEq, Prod.mk.injEq] at last
  refine ⟨s, reachable_run initial_twoServers (by decide +kernel) ran, fun single => ?_⟩
  exact absurd (single _ _ _ _ last.1 last.2) (by decide)

/-- The first lease runs out, then the primary cannot be reached and the other takes over. -/
def takenOver : List Action :=
  addChunk {} fileA [serverP, serverQ] 0 ++ requestLease fileA ++ sendRound [serverQ] ++
    serve {} ⟨1, serverP, .grantLease 2 [serverQ]⟩ ++ serve {} ⟨1, serverQ, .updateVersion 2⟩ ++
    [.grantStep, .grantStep, .tick 66000000000] ++
    requestLease fileA ++ sendRound [serverQ] ++ serve {} ⟨2, serverQ, .updateVersion 3⟩ ++
    [.timeout 2 serverP, .grantStep] ++
    sendRound [] ++ serve {} ⟨3, serverQ, .grantLease 3 []⟩ ++ [.grantStep]

theorem singlePrimary_takenOver :
    ∃ s, run (step {}) twoServers takenOver = some s ∧
      LeaseTable.check s.now (s.replica serverP).slot = .expired ∧
      LeaseTable.check s.now (s.replica serverQ).slot = .primary [] ∧ SinglePrimary s := by
  obtain ⟨s, ran⟩ := Option.isSome_iff_exists.mp
    (by decide +kernel : (run (step {}) twoServers takenOver).isSome = true)
  have last : (run (step {}) twoServers takenOver).map (fun s =>
      (LeaseTable.check s.now (s.replica serverP).slot,
        LeaseTable.check s.now (s.replica serverQ).slot)) =
      some (.expired, .primary []) := by decide +kernel
  simp only [ran, Option.map_some, Option.some.injEq, Prod.mk.injEq] at last
  exact ⟨s, ran, last.1, last.2, singlePrimary_of_allowed (by decide)
    (reachable_run initial_twoServers (by decide +kernel) ran)⟩

end Gfs.Cluster.Primary
