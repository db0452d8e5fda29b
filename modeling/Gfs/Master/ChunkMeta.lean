import Gfs.Common.Base
import Std.Data.ExtTreeMap

/-!
# One entry of the master's chunk table, and what the lease manager and the heartbeats do to it

The lease functions of `master/lease_manager.cc` and the part of `Master::HeartBeat` that concerns a
single chunk, each the body of a section under the state mutex. `alive` is `registry_.Resolve`, which
knows a chunkserver only while it is alive.
-/

namespace Gfs.Master

structure Lease where
  primary : ServerId
  expiry : TimePoint
  revoked : Bool := false
deriving DecidableEq, Repr

structure ChunkMeta where
  version : Nat := 1
  refcount : Nat := 0
  pending : Bool := false
  granting : Bool := false
  locations : Std.ExtTreeMap ServerId TimePoint := ∅
  lease : Option Lease := none

/-- What `PrepareLocked` chose for a round of `GrantSerialized`. -/
structure Attempt where
  primary : ServerId
  secondaries : List ServerId
  version : Nat
deriving DecidableEq, Repr

namespace ChunkMeta

def addLocation (m : ChunkMeta) (server : ServerId) (time : TimePoint) : ChunkMeta :=
  { m with locations := m.locations.insertIfNew server time }

def removeLocation (m : ChunkMeta) (server : ServerId) : ChunkMeta :=
  { m with locations := m.locations.erase server }

def isValid (cfg : Config) (m : ChunkMeta) (now : TimePoint) : Bool :=
  match m.lease with
  | none => false
  | some l =>
      !l.revoked && decide (now ≤ l.expiry + cfg.leaseClockSkewMargin) && m.locations.contains l.primary

def isPendingExpiry (cfg : Config) (m : ChunkMeta) (now : TimePoint) : Bool :=
  match m.lease with
  | none => false
  | some l =>
      decide (now ≤ l.expiry + cfg.leaseClockSkewMargin) &&
        (l.revoked || !m.locations.contains l.primary)

def waitUntil (cfg : Config) (l : Lease) : TimePoint :=
  l.expiry + cfg.leaseClockSkewMargin + millis 1

def extendLocked (cfg : Config) (m : ChunkMeta) (primary : ServerId) (now : TimePoint) :
    Option ChunkMeta :=
  match m.lease with
  | none => none
  | some l =>
      if m.isValid cfg now ∧ l.primary = primary then
        some { m with lease := some { l with expiry := now + cfg.leaseDuration } }
      else none

/-! ## A round of `GrantSerialized` -/

/-- The chunkservers of the group that are alive, in the order of the map. -/
def live (alive : ServerId → Bool) (m : ChunkMeta) : List ServerId := m.locations.keys.filter alive

def choosePrimary (m : ChunkMeta) (live : List ServerId) (front : ServerId) : ServerId :=
  match m.lease with
  | none => front
  | some l => if l.primary ∈ live then l.primary else front

def prepareLocked (cfg : Config) (alive : ServerId → Bool) (m : ChunkMeta) :
    Option (Attempt × ChunkMeta) :=
  match m.live alive with
  | [] => none
  | front :: rest =>
      if (front :: rest).length < cfg.minReplicasForWrite then none
      else
        let primary := m.choosePrimary (front :: rest) front
        some ({ primary
                secondaries := (front :: rest).filter (· ≠ primary)
                version := m.version + 1 }, { m with granting := true })

/-- The last section of a round in which every chunkserver acknowledged. -/
def commit (cfg : Config) (now : TimePoint) (attempt : Attempt) (m : ChunkMeta) : ChunkMeta :=
  { m with
    version := max m.version attempt.version
    granting := false
    lease := some { primary := attempt.primary, expiry := now + cfg.leaseDuration } }

/-! ## Revocation -/

/-- The first section of `Revoke`: the lease to revoke, unless there is none or it has run out. -/
def revokeLocked (cfg : Config) (now : TimePoint) (m : ChunkMeta) : Option Lease × ChunkMeta :=
  match m.lease with
  | none => (none, m)
  | some l =>
      if l.expiry + cfg.leaseClockSkewMargin < now then (none, { m with lease := none })
      else (some l, { m with lease := some { l with revoked := true } })

/-- The last section of `Revoke` after an acknowledgement; the result is `acked`. -/
def revokeAcked (primary : ServerId) (m : ChunkMeta) : Bool × ChunkMeta :=
  match m.lease with
  | none => (false, m)
  | some l => if l.primary = primary then (true, { m with lease := none }) else (false, m)

/-! ## Heartbeats -/

/-- What a section of `HeartBeat` does about one chunk: whether the chunk goes into
`delete_handles`, whether the report counts, whether a regrant is due, and the version to log. -/
structure Verdict where
  chunk : ChunkMeta
  delete : Bool := false
  reported : Bool := false
  regrant : Bool := false
  bump : Option Nat := none

/-- The loop body over `req.chunks()` for a chunk that the table has. -/
def report (cfg : Config) (t : TimePoint) (server : ServerId) (version : Nat) (m : ChunkMeta) :
    Verdict :=
  if m.granting then
    if version + 1 < m.version then { chunk := m.removeLocation server, delete := true }
    else { chunk := m.addLocation server t, reported := true }
  else if version < m.version then
    { chunk := m.removeLocation server
      delete := true
      regrant := m.locations.contains server && (m.removeLocation server).isValid cfg t }
  else
    let adopted := if m.version < version then { m with version } else m
    { chunk := adopted.addLocation server t
      reported := true
      regrant := !m.locations.contains server && (adopted.addLocation server t).isValid cfg t
      bump := if m.version < version then some version else none }

/-- The loop body over `known` for a chunk that was not reported. -/
def unreported (cfg : Config) (t : TimePoint) (server : ServerId) (m : ChunkMeta) : Verdict :=
  match m.locations[server]? with
  | some since =>
      if t - since < cfg.heartbeatInterval * 2 then { chunk := m }
      else
        { chunk := m.removeLocation server, regrant := (m.removeLocation server).isValid cfg t }
  | none => { chunk := m, regrant := m.isValid cfg t }

/-- The loop body over `req.corrupt()`. -/
def reportCorrupt (cfg : Config) (t : TimePoint) (server : ServerId) (m : ChunkMeta) : Verdict :=
  { chunk := m.removeLocation server
    delete := true
    regrant := (m.removeLocation server).isValid cfg t }

/-- What the section of `HeartBeat` does about a chunk in all, `none` for one that the table does
not have; `extended` says that the answer extends the lease. -/
structure HeartBeat where
  chunk : Option ChunkMeta
  delete : Bool := false
  regrant : Bool := false
  extended : Bool := false

def heartBeat (cfg : Config) (t : TimePoint) (server : ServerId) (version : Option Nat)
    (corrupt extend : Bool) : Option ChunkMeta → HeartBeat
  | none => { chunk := none, delete := version.isSome || corrupt }
  | some m =>
      let known := m.locations.contains server
      let first := match version with
        | some version => m.report cfg t server version
        | none => { chunk := m }
      let second :=
        if known && !first.reported then first.chunk.unreported cfg t server
        else { chunk := first.chunk }
      let third :=
        if corrupt then second.chunk.reportCorrupt cfg t server else { chunk := second.chunk }
      let extension := if extend then third.chunk.extendLocked cfg server t else none
      { chunk := some (extension.getD third.chunk)
        delete := first.delete || third.delete
        regrant := first.regrant || second.regrant || third.regrant
        extended := extension.isSome }

/-- One chunkserver of the loop in `SweepDead`. -/
def sweep (cfg : Config) (t : TimePoint) (server : ServerId) (m : ChunkMeta) : Bool × ChunkMeta :=
  if m.locations.contains server then
    ((m.removeLocation server).isValid cfg t, m.removeLocation server)
  else (false, m)

theorem foldl_removeLocation (servers : List ServerId) (m : ChunkMeta) :
    ∃ locations, (∀ server, server ∈ locations → server ∈ m.locations) ∧
      servers.foldl removeLocation m = { m with locations } := by
  induction servers generalizing m with
  | nil => exact ⟨m.locations, fun _ => id, rfl⟩
  | cons server rest ih =>
      obtain ⟨locations, sub, same⟩ := ih (m.removeLocation server)
      exact ⟨locations, fun other member => Std.ExtTreeMap.mem_of_mem_erase (sub other member), same⟩

theorem choosePrimary_mem {m : ChunkMeta} {front : ServerId} {rest : List ServerId} :
    m.choosePrimary (front :: rest) front ∈ front :: rest := by
  unfold choosePrimary
  split
  · exact List.mem_cons_self
  · split
    · assumption
    · exact List.mem_cons_self

/-- The group of an attempt are the chunkservers that were alive. -/
theorem prepareLocked_eq {cfg : Config} {alive : ServerId → Bool} {m m' : ChunkMeta}
    {attempt : Attempt} (prepared : m.prepareLocked cfg alive = some (attempt, m')) :
    m' = { m with granting := true } ∧ attempt.version = m.version + 1 ∧
      (∀ server, server ∈ attempt.primary :: attempt.secondaries ↔ server ∈ m.live alive) ∧
      attempt.primary ∉ attempt.secondaries := by
  unfold prepareLocked at prepared
  cases live : m.live alive with
  | nil => simp [live] at prepared
  | cons front rest =>
      simp only [live] at prepared
      split at prepared <;> cases prepared
      refine ⟨rfl, rfl, fun server => ?_, by simp⟩
      have primary : m.choosePrimary (front :: rest) front ∈ front :: rest := choosePrimary_mem
      by_cases same : server = m.choosePrimary (front :: rest) front
      · exact iff_of_true (same ▸ List.mem_cons_self) (same ▸ primary)
      · simp [same]

/-! ## What a heartbeat leaves alone -/

/-- The fields other than the locations and the lease, the version only growing, and not at all while
the chunk is being granted. -/
structure Follows (m m' : ChunkMeta) : Prop where
  version : m.version ≤ m'.version
  frozen : m.granting = true → m'.version = m.version
  refcount : m'.refcount = m.refcount
  pending : m'.pending = m.pending
  granting : m'.granting = m.granting

theorem Follows.refl (m : ChunkMeta) : Follows m m := ⟨Nat.le_refl _, fun _ => rfl, rfl, rfl, rfl⟩

theorem Follows.trans {m₁ m₂ m₃ : ChunkMeta} (first : Follows m₁ m₂) (second : Follows m₂ m₃) :
    Follows m₁ m₃ where
  version := Nat.le_trans first.version second.version
  frozen granting := (second.frozen (first.granting.trans granting)).trans (first.frozen granting)
  refcount := second.refcount.trans first.refcount
  pending := second.pending.trans first.pending
  granting := second.granting.trans first.granting

section
variable {cfg : Config} {t : TimePoint} {server : ServerId} {m : ChunkMeta}

theorem addLocation_follows : Follows m (m.addLocation server t) :=
  ⟨Nat.le_refl _, fun _ => rfl, rfl, rfl, rfl⟩

theorem removeLocation_follows : Follows m (m.removeLocation server) :=
  ⟨Nat.le_refl _, fun _ => rfl, rfl, rfl, rfl⟩

theorem report_follows {version : Nat} :
    Follows m (m.report cfg t server version).chunk ∧
      (m.report cfg t server version).chunk.lease = m.lease := by
  unfold report
  split
  · split
    · exact ⟨removeLocation_follows, rfl⟩
    · exact ⟨addLocation_follows, rfl⟩
  · rename_i free
    split
    · exact ⟨removeLocation_follows, rfl⟩
    · dsimp only
      split
      · rename_i newer
        have adopted : Follows m { m with version } :=
          ⟨Nat.le_of_lt newer, fun granting => absurd granting free, rfl, rfl, rfl⟩
        exact ⟨adopted.trans addLocation_follows, rfl⟩
      · exact ⟨addLocation_follows, rfl⟩

theorem unreported_follows :
    Follows m (m.unreported cfg t server).chunk ∧
      (m.unreported cfg t server).chunk.lease = m.lease := by
  unfold unreported
  split
  · split
    · exact ⟨.refl m, rfl⟩
    · exact ⟨removeLocation_follows, rfl⟩
  · exact ⟨.refl m, rfl⟩

theorem report_version {version : Nat} : (m.report cfg t server version).chunk.version = m.version ∨
    (m.report cfg t server version).chunk.version = version := by
  unfold report
  split
  · split
    · exact .inl rfl
    · exact .inl rfl
  · split
    · exact .inl rfl
    · dsimp only
      split
      · exact .inr rfl
      · exact .inl rfl

theorem unreported_version : (m.unreported cfg t server).chunk.version = m.version := by
  unfold unreported
  split
  · split
    · rfl
    · rfl
  · rfl

theorem report_delete {version : Nat} (delete : (m.report cfg t server version).delete = true) :
    version < m.version := by
  unfold report at delete
  split at delete
  · split at delete
    · omega
    · cases delete
  · split at delete
    · assumption
    · cases delete

theorem extendLocked_eq {m' : ChunkMeta} {now : TimePoint}
    (extended : m.extendLocked cfg server now = some m') :
    ∃ l, m.lease = some l ∧ m.isValid cfg now = true ∧ l.primary = server ∧
      m' = { m with lease := some { l with expiry := now + cfg.leaseDuration } } := by
  unfold extendLocked at extended
  split at extended
  · cases extended
  · rename_i l lease
    split at extended <;> cases extended
    rename_i both
    exact ⟨l, lease, both.1, both.2, rfl⟩

theorem isValid_lease {now : TimePoint} (valid : m.isValid cfg now = true) :
    ∃ l, m.lease = some l ∧ l.revoked = false ∧ now ≤ l.expiry + cfg.leaseClockSkewMargin ∧
      l.primary ∈ m.locations := by
  unfold isValid at valid
  cases lease : m.lease with
  | none => simp [lease] at valid
  | some l =>
      simp only [lease, Bool.and_eq_true, Bool.not_eq_true', decide_eq_true_eq] at valid
      exact ⟨l, rfl, valid.1.1, valid.1.2, valid.2⟩

/-- What the section of `HeartBeat` does to a chunk. -/
theorem heartBeat_cases (cfg : Config) (t : TimePoint) (server : ServerId) (m : ChunkMeta)
    (version : Option Nat) (corrupt extend : Bool) :
    ∃ m', (heartBeat cfg t server version corrupt extend (some m)).chunk = some m' ∧
      Follows m m' ∧ (m'.version = m.version ∨ version = some m'.version) ∧
      ((heartBeat cfg t server version corrupt extend (some m)).delete = true →
        corrupt = true ∨ ∃ v, version = some v ∧ v < m.version) ∧
      (((heartBeat cfg t server version corrupt extend (some m)).extended = false ∧
          m'.lease = m.lease) ∨
        ((heartBeat cfg t server version corrupt extend (some m)).extended = true ∧ extend = true ∧
          ∃ l, m.lease = some l ∧ l.revoked = false ∧
            t ≤ l.expiry + cfg.leaseClockSkewMargin ∧ l.primary = server ∧
            m'.lease = some { l with expiry := t + cfg.leaseDuration })) := by
  obtain ⟨first, isFirst⟩ : ∃ first : Verdict, first = (match version with
    | some version => m.report cfg t server version
    | none => { chunk := m }) := ⟨_, rfl⟩
  obtain ⟨second, isSecond⟩ : ∃ second : Verdict, second =
    if m.locations.contains server && !first.reported then first.chunk.unreported cfg t server
    else { chunk := first.chunk } := ⟨_, rfl⟩
  obtain ⟨third, isThird⟩ : ∃ third : Verdict, third =
    if corrupt then second.chunk.reportCorrupt cfg t server else { chunk := second.chunk } := ⟨_, rfl⟩
  obtain ⟨extension, isExtension⟩ : ∃ extension : Option ChunkMeta, extension =
    if extend then third.chunk.extendLocked cfg server t else none := ⟨_, rfl⟩
  have whole : heartBeat cfg t server version corrupt extend (some m) =
      { chunk := some (extension.getD third.chunk)
        delete := first.delete || third.delete
        regrant := first.regrant || second.regrant || third.regrant
        extended := extension.isSome } := by
    subst isExtension isThird isSecond isFirst
    rfl
  have one : Follows m first.chunk ∧ first.chunk.lease = m.lease ∧
      (first.delete = true → ∃ v, version = some v ∧ v < m.version) := by
    cases version with
    | none => exact isFirst ▸ ⟨.refl m, rfl, nofun⟩
    | some v => exact isFirst ▸ ⟨report_follows.1, report_follows.2, fun h => ⟨v, rfl, report_delete h⟩⟩
  have two : Follows first.chunk second.chunk ∧ second.chunk.lease = first.chunk.lease := by
    rw [isSecond]
    split
    · exact unreported_follows
    · exact ⟨.refl _, rfl⟩
  have three : Follows second.chunk third.chunk ∧ third.chunk.lease = second.chunk.lease ∧
      (third.delete = true → corrupt = true) := by
    rw [isThird]
    cases corrupt with
    | true => exact ⟨removeLocation_follows, rfl, fun _ => rfl⟩
    | false => exact ⟨.refl _, rfl, nofun⟩
  have raised : third.chunk.version = m.version ∨ version = some third.chunk.version := by
    have reported : first.chunk.version = m.version ∨ version = some first.chunk.version := by
      cases version with
      | none => exact .inl (isFirst ▸ rfl)
      | some v =>
          rcases report_version with same | adopted
          · exact .inl (isFirst ▸ same)
          · exact .inr (isFirst ▸ congrArg some adopted.symm)
    have missed : second.chunk.version = first.chunk.version := by
      rw [isSecond]
      split
      · exact unreported_version
      · rfl
    have same : third.chunk.version = first.chunk.version := by
      rw [← missed, isThird]
      split
      · rfl
      · rfl
    rwa [same]
  have follows := one.1.trans (two.1.trans three.1)
  have lease : third.chunk.lease = m.lease := three.2.1.trans (two.2.trans one.2.1)
  have delete : (first.delete || third.delete) = true →
      corrupt = true ∨ ∃ v, version = some v ∧ v < m.version := by
    intro h
    rcases Bool.or_eq_true_iff.mp h with stale | rotten
    · exact .inr (one.2.2 stale)
    · exact .inl (three.2.2 rotten)
  rw [whole]
  cases extended : extension with
  | none => exact ⟨third.chunk, rfl, follows, raised, delete, .inl ⟨rfl, lease⟩⟩
  | some m' =>
      cases extend with
      | false => simp [extended] at isExtension
      | true =>
          obtain ⟨l, found, valid, primary, rfl⟩ :=
            extendLocked_eq (isExtension.symm.trans extended)
          obtain ⟨l', found', unrevoked, fresh, _⟩ := isValid_lease valid
          obtain rfl : l' = l := Option.some.inj (found'.symm.trans found)
          refine ⟨_, rfl, ?_, raised, delete,
            .inr ⟨rfl, rfl, l', lease ▸ found, unrevoked, fresh, primary, rfl⟩⟩
          exact follows.trans ⟨Nat.le_refl _, fun _ => rfl, rfl, rfl, rfl⟩

end

end ChunkMeta

end Gfs.Master
