import Gfs.Chunkserver.Replica
import Gfs.Lib.History
import Gfs.Lib.Transition

/-!
# The version fence and the revocation fence of one chunkserver

The runs of `Write`, `RecordAppend`, `ApplyMutation`, `GrantLease`, `UpdateVersion` and `RevokeLease`
on one chunkserver, one mutex-protected step at a time, with the history of what they did.
-/

namespace Gfs.Chunkserver.Fence
open Lib.Transition Lib.History

/-- `versionOk` and `revokeOk` are the answers of the version and lease handlers, `leaseGranted` is
`leases_.Grant`, and a mutation is named by its place in the order of the mutation lock. -/
inductive Event
  | versionOk (version : Nat)
  | revokeOk
  | leaseGranted
  | admitted (mutation : Nat)
  | applied (mutation version : Nat)
deriving DecidableEq

structure State where
  replica : Replica
  now : TimePoint
  mutation : Nat := 0
  history : List Event := []

inductive Action
  | tick (elapsed : Nat)
  | push (key : BufferKey) (data : Bytes)
  | start (origin : Origin) (op : MutationOp)
  | advance (io : Io)
  | forwarded (reached : Bool)
  | setVersion (io : Io) (half : Half)
  | complete (half : Half)
  | revokeLease
  | extend (lease : Duration)

def completed : Half → List Event
  | .grant version _ _ _ => [.leaseGranted, .versionOk version]
  | .update version _ => [.versionOk version]

/-- What a step of the mutation handler adds to the history. -/
def emitted (mutation : Nat) (out : Outcome) : List Event :=
  match out.stored, out.replica.frame with
  | some done, _ => [.applied mutation done.request.version]
  | none, some ⟨_, _, .leased _⟩ => [.admitted mutation]
  | none, _ => []

def step (cfg : Config) (s : State) : Action → Option State
  | .tick elapsed => some { s with now := s.now + elapsed }
  | .push key data =>
      some { s with replica := { s.replica with buffer := s.replica.buffer.put key data } }
  | .start origin op => (s.replica.start origin op).map fun out =>
      { s with
        replica := out.replica
        mutation := if out.response = none then s.mutation + 1 else s.mutation }
  | .advance io => (s.replica.advance cfg s.now io).map fun out =>
      { s with replica := out.replica, history := s.history ++ emitted s.mutation out }
  | .forwarded reached => (s.replica.forwarded reached).map fun out =>
      { s with replica := out.replica }
  | .setVersion io half =>
      some { s with replica := (s.replica.setVersion io (half.version) half).2 }
  | .complete half =>
      if half ∈ s.replica.halves then
        some { s with
          replica := s.replica.completeHalf cfg s.now half
          history := s.history ++ completed half }
      else none
  | .revokeLease =>
      some { s with replica := s.replica.revokeLease, history := s.history ++ [.revokeOk] }
  | .extend lease => some { s with replica := s.replica.extendLease cfg s.now lease }

/-- A chunkserver on which none of the handlers is running. -/
def Initial (s : State) : Prop :=
  s.replica.frame = none ∧ s.replica.halves = [] ∧ s.history = []

/-! ## The fences -/

/-- No mutation is applied under a version for which a greater one has been confirmed. -/
def VersionFence (before : List Event) (event : Event) : Prop :=
  ∀ mutation version, event = .applied mutation version →
    ∀ confirmed, .versionOk confirmed ∈ before → confirmed ≤ version

/-- The mutation was admitted, then a revocation was confirmed, and no lease granted since. -/
def Revoked (mutation : Nat) (history : List Event) : Prop :=
  ∃ before between after, history = before ++ .admitted mutation :: between ++ .revokeOk :: after ∧
    .leaseGranted ∉ after

def RevocationFence (before : List Event) (event : Event) : Prop :=
  ∀ mutation version, event = .applied mutation version → ¬ Revoked mutation before

def Fenced (history : List Event) : Prop :=
  Along VersionFence history ∧ Along RevocationFence history

/-! ## When the fences hold -/

def State.Checked (s : State) (op : MutationOp) : Prop :=
  ∃ origin stage, s.replica.frame = some ⟨origin, op, stage⟩ ∧ stage.isChecked = true

def State.Admitted (s : State) (op : MutationOp) : Prop :=
  op.isClient = true ∧ ∃ origin stage, s.replica.frame = some ⟨origin, op, stage⟩ ∧ stage.isAdmitted = true

/-- The versions that have been confirmed, and those whose handlers have stored them. -/
def State.fences (s : State) : List Nat :=
  s.history.filterMap (fun | .versionOk version => some version | _ => none) ++
    s.replica.halves.map Half.version

/-- `SetVersion` does not lower a fence, no version is confirmed while a mutation under a smaller
one is past its version check, and no revocation while one is past its lease check. -/
def Allowed (s : State) : Action → Prop
  | .setVersion io half => io = .ok → ∀ version ∈ s.fences, version ≤ half.version
  | .complete half => ∀ op, s.Checked op → half.version ≤ op.version
  | .revokeLease => ∀ op, ¬ s.Admitted op
  | _ => True

/-! ## The invariant -/

theorem mem_fences {s : State} {version : Nat} :
    version ∈ s.fences ↔
      .versionOk version ∈ s.history ∨ ∃ half ∈ s.replica.halves, half.version = version := by
  simp only [State.fences, List.mem_append, List.mem_map, List.mem_filterMap]
  refine or_congr_left ⟨?_, fun member => ⟨_, member, rfl⟩⟩
  rintro ⟨event, member, same⟩
  cases event <;> simp_all

theorem revoked_concat {mutation : Nat} {history : List Event} {event : Event} :
    Revoked mutation (history ++ [event]) ↔
      (Revoked mutation history ∧ event ≠ .leaseGranted) ∨
        (.admitted mutation ∈ history ∧ event = .revokeOk) := by
  constructor
  · rintro ⟨before, between, after, split, noGrant⟩
    rcases List.eq_nil_or_concat after with rfl | ⟨after, last, rfl⟩
    · obtain ⟨rfl, same⟩ := List.append_inj' split rfl
      cases same
      exact .inr ⟨by simp, rfl⟩
    · have split' : history ++ [event] =
          (before ++ .admitted mutation :: between ++ .revokeOk :: after) ++ [last] := by
        simp [split]
      obtain ⟨rfl, same⟩ := List.append_inj' split' rfl
      cases same
      simp only [List.concat_eq_append, List.mem_append, List.mem_singleton, not_or] at noGrant
      exact .inl ⟨⟨before, between, after, by simp, noGrant.1⟩, Ne.symm noGrant.2⟩
  · rintro (⟨⟨before, between, after, rfl, noGrant⟩, other⟩ | ⟨member, rfl⟩)
    · exact ⟨before, between, after ++ [event], by simp, by simp [noGrant, Ne.symm other]⟩
    · obtain ⟨before, between, rfl⟩ := List.append_of_mem member
      exact ⟨before, between, [], by simp, by simp⟩

theorem Revoked.admitted {mutation : Nat} {history : List Event}
    (revoked : Revoked mutation history) : .admitted mutation ∈ history := by
  obtain ⟨before, between, after, rfl, _⟩ := revoked
  simp

/-- The frame is before its lease check, or is an `ApplyMutation`, which has none. -/
def Frame.isUnadmitted (f : Frame) : Bool :=
  !f.op.isClient || !(f.stage.isAdmitted || f.stage matches .forwarding _ _)

structure Inv (s : State) : Prop where
  stored : ∀ entry, s.replica.entry = some entry → ∀ v ∈ s.fences, v ≤ entry.version
  checked : ∀ op, s.Checked op → ∀ v, .versionOk v ∈ s.history → v ≤ op.version
  numbered : ∀ origin op secondaries request data,
    s.replica.frame = some ⟨origin, op, .numbered secondaries request data⟩ → request.version = op.version
  named : ∀ mutation, .admitted mutation ∈ s.history → mutation ≤ s.mutation
  fresh : ∀ f, s.replica.frame = some f → Frame.isUnadmitted f = true →
    .admitted s.mutation ∉ s.history
  admitted : ∀ op, s.Admitted op → ¬ Revoked s.mutation s.history
  fenced : Fenced s.history

theorem Initial.inv {s : State} (initial : Initial s) : Inv s := by
  obtain ⟨idle, noHalves, empty⟩ := initial
  constructor
  · simp [State.fences, noHalves, empty]
  · simp [empty]
  · simp [idle]
  · simp [empty]
  · simp [idle]
  · simp [State.Admitted, idle]
  · simp [empty, Fenced]

theorem Inv.frame_eq {s s' : State} (inv : Inv s) (entry : s'.replica.entry = s.replica.entry)
    (halves : s'.replica.halves = s.replica.halves) (frame : s'.replica.frame = s.replica.frame)
    (mutation : s'.mutation = s.mutation) (history : s'.history = s.history) : Inv s' := by
  have fences : s'.fences = s.fences := by simp [State.fences, halves, history]
  have same : ∀ op, s'.Checked op ↔ s.Checked op := by simp [State.Checked, frame]
  have same' : ∀ op, s'.Admitted op ↔ s.Admitted op := by simp [State.Admitted, frame]
  constructor
  · simpa only [entry, fences] using inv.stored
  · simpa only [same, history] using inv.checked
  · simpa only [frame] using inv.numbered
  · simpa only [history, mutation] using inv.named
  · simpa only [frame, history, mutation] using inv.fresh
  · simpa only [same', history, mutation] using inv.admitted
  · simpa only [history] using inv.fenced

theorem Inv.unlock {s : State} (inv : Inv s) :
    Inv { s with replica := { s.replica with frame := none } } := by
  constructor
  · exact inv.stored
  · simp [State.Checked]
  · simp
  · exact inv.named
  · simp
  · simp [State.Admitted]
  · exact inv.fenced

theorem Inv.start {s : State} {origin : Origin} {op : MutationOp} {out : Outcome} (inv : Inv s)
    (started : s.replica.start origin op = some out) :
    Inv { s with
      replica := out.replica
      mutation := if out.response = none then s.mutation + 1 else s.mutation } := by
  unfold Replica.start at started
  cases entry : s.replica.entry with
  | none =>
      simp only [entry, Option.some.injEq] at started
      subst started
      exact inv.frame_eq rfl rfl rfl rfl rfl
  | some stored =>
      cases frame : s.replica.frame with
      | some f => simp [entry, frame] at started
      | none =>
          simp only [entry, frame, Option.some.injEq] at started
          subst started
          have later : .admitted (s.mutation + 1) ∉ s.history := fun member => by
            have := inv.named _ member
            omega
          constructor
          · exact inv.stored
          · simp [State.Checked, Replica.goto, Stage.isChecked]
          · simp [Replica.goto]
          · intro mutation member
            exact Nat.le_succ_of_le (inv.named mutation member)
          · intro f _ _
            exact later
          · simp [State.Admitted, Replica.goto, Stage.isAdmitted]
          · exact inv.fenced

theorem Inv.applied {s : State} {origin : Origin} {op : MutationOp} {stage : Stage}
    {request : ApplyMutationRequest} {replica : Replica} {entry entry' : ChunkEntry} (inv : Inv s)
    (frame : s.replica.frame = some ⟨origin, op, stage⟩) (past : stage.isChecked = true)
    (same : request.version = op.version) (unrevoked : ¬ Revoked s.mutation s.history)
    (old : s.replica.entry = some entry) (new : replica.entry = some entry')
    (version : entry'.version = entry.version) (halves : replica.halves = s.replica.halves)
    (left : replica.frame = none ∨
      ∃ secondaries, replica.frame = some ⟨origin, op, .forwarding secondaries request⟩) :
    Inv { s with
      replica
      history := s.history ++ [.applied s.mutation request.version] } := by
  have bound := inv.checked op ⟨_, stage, frame, past⟩
  constructor
  · intro e he v member
    cases he.symm.trans new
    rw [version]
    refine inv.stored entry old v ?_
    simpa [mem_fences, halves] using member
  · rintro op' ⟨_, stage', frame', past'⟩
    rcases left with idle | ⟨secondaries, forwarding⟩
    · simp [idle] at frame'
    · simp only [forwarding, Option.some.injEq, Frame.mk.injEq] at frame'
      simp [← frame'.2.2, Stage.isChecked] at past'
  · intro _ op' secondaries request' data frame'
    rcases left with idle | ⟨_, forwarding⟩
    · simp [idle] at frame'
    · simp [forwarding] at frame'
  · simpa using inv.named
  · intro f frame' unadmitted
    rcases left with idle | ⟨_, forwarding⟩
    · simp [idle] at frame'
    · simp only [forwarding, Option.some.injEq] at frame'
      subst frame'
      have forwardedOp : op.isClient = false := by simpa [Frame.isUnadmitted] using unadmitted
      simpa using inv.fresh _ frame (by simp [Frame.isUnadmitted, forwardedOp])
  · rintro op' ⟨_, _, stage', frame', past'⟩
    rcases left with idle | ⟨_, forwarding⟩
    · simp [idle] at frame'
    · simp only [forwarding, Option.some.injEq, Frame.mk.injEq] at frame'
      simp [← frame'.2.2, Stage.isAdmitted] at past'
  · refine ⟨along_concat.mpr ⟨inv.fenced.1, ?_⟩, along_concat.mpr ⟨inv.fenced.2, ?_⟩⟩
    · rintro mutation version ⟨⟩ v member
      exact same ▸ bound v member
    · rintro mutation version ⟨⟩
      exact unrevoked

/-- A step from one stage to another that passes no check. -/
theorem Inv.move {s : State} {origin : Origin} {op : MutationOp} {stage stage' : Stage} {slot : Option Slot}
    {buffer : DataBuffer} (inv : Inv s) (frame : s.replica.frame = some ⟨origin, op, stage⟩)
    (checked : stage'.isChecked = true → stage.isChecked = true)
    (admitted : op.isClient = true → stage'.isAdmitted = true →
      stage.isAdmitted = true)
    (unadmitted : Frame.isUnadmitted ⟨origin, op, stage'⟩ = true →
      Frame.isUnadmitted ⟨origin, op, stage⟩ = true)
    (numbered : ∀ secondaries request data, stage' = .numbered secondaries request data →
      request.version = op.version) :
    Inv { s with replica := { s.replica with buffer, slot, frame := some ⟨origin, op, stage'⟩ } } := by
  constructor
  · exact inv.stored
  · rintro op' ⟨_, stage'', same, past⟩
    cases same
    exact inv.checked op ⟨_, stage, frame, checked past⟩
  · rintro _ op' secondaries request data ⟨⟩
    exact numbered _ _ _ rfl
  · exact inv.named
  · rintro f ⟨⟩ late
    exact inv.fresh _ frame (unadmitted late)
  · rintro op' ⟨client, _, stage'', same, past⟩
    cases same
    exact inv.admitted op ⟨client, _, stage, frame, admitted client past⟩
  · exact inv.fenced

theorem Inv.checkVersion {s : State} {origin : Origin} {op : MutationOp} {entry : ChunkEntry}
    {buffer : DataBuffer} (inv : Inv s) (frame : s.replica.frame = some ⟨origin, op, .locked⟩)
    (found : s.replica.entry = some entry) (same : entry.version = op.version) :
    Inv { s with replica := { s.replica with buffer, frame := some ⟨origin, op, .versioned⟩ } } := by
  have early := inv.fresh _ frame (by simp [Frame.isUnadmitted, Stage.isAdmitted])
  constructor
  · exact inv.stored
  · rintro op' ⟨_, stage, same', past⟩ v member
    cases same'
    exact same ▸ inv.stored entry found v (mem_fences.mpr (.inl member))
  · simp
  · exact inv.named
  · exact fun _ _ _ => early
  · exact fun _ _ revoked => early revoked.admitted
  · exact inv.fenced

theorem Inv.admit {s : State} {origin : Origin} {op : MutationOp} {secondaries : List ServerId}
    {buffer : DataBuffer} (inv : Inv s)
    (frame : s.replica.frame = some ⟨origin, op, .versioned⟩) (client : op.isClient = true) :
    Inv { s with
      replica := { s.replica with buffer, frame := some ⟨origin, op, .leased secondaries⟩ }
      history := s.history ++ [.admitted s.mutation] } := by
  have early := inv.fresh _ frame (by simp [Frame.isUnadmitted, Stage.isAdmitted])
  constructor
  · intro entry found v member
    refine inv.stored entry found v ?_
    simpa [mem_fences] using member
  · rintro op' ⟨_, stage, same, past⟩ v member
    cases same
    exact inv.checked op ⟨_, _, frame, rfl⟩ v (by simpa using member)
  · simp
  · intro mutation member
    rcases List.mem_append.mp member with member | member
    · exact inv.named mutation member
    · cases List.mem_singleton.mp member
      exact Nat.le_refl _
  · rintro f ⟨⟩ late
    simp [Frame.isUnadmitted, Stage.isAdmitted, client] at late
  · intro op' _ revoked
    rcases revoked_concat.mp revoked with ⟨revoked, _⟩ | ⟨member, _⟩
    · exact early revoked.admitted
    · exact early member
  · refine ⟨along_concat.mpr ⟨inv.fenced.1, ?_⟩, along_concat.mpr ⟨inv.fenced.2, ?_⟩⟩
    · rintro mutation version ⟨⟩
    · rintro mutation version ⟨⟩

theorem Inv.unrevoked {s : State} {origin : Origin} {op : MutationOp} {stage : Stage} (inv : Inv s)
    (frame : s.replica.frame = some ⟨origin, op, stage⟩)
    (past : op.isClient = true → stage.isAdmitted = true) :
    ¬ Revoked s.mutation s.history := by
  cases client : op.isClient with
  | true => exact inv.admitted op ⟨client, _, stage, frame, past client⟩
  | false =>
      have never := inv.fresh _ frame (by simp [Frame.isUnadmitted, client])
      exact fun revoked => never revoked.admitted

theorem Inv.advance {cfg : Config} {s : State} {io : Io} {out : Outcome} (inv : Inv s)
    (h : s.replica.advance cfg s.now io = some out) :
    Inv { s with replica := out.replica, history := s.history ++ emitted s.mutation out } := by
  cases Replica.advance_progress h with
  | answer frame _ => simpa [emitted] using inv.unlock
  | @move origin op stage stage' slot buffer frame follows =>
      cases follows with
      | version found same => simpa [emitted] using inv.checkVersion frame found same
      | lease client _ => exact inv.admit frame client
      | receive notClient =>
          simpa [emitted] using inv.move frame (fun _ => rfl) (by simp [notClient])
            (by simp [Frame.isUnadmitted, notClient]) (by simp)
      | size =>
          simpa [emitted] using inv.move frame (fun _ => rfl) (fun _ _ => rfl)
            (by simp [Frame.isUnadmitted, Stage.isAdmitted]) (by simp)
      | length client =>
          simpa [emitted] using inv.move frame (fun _ => rfl) (fun _ _ => rfl)
            (by simp [Frame.isUnadmitted, Stage.isAdmitted]) (by simp)
      | take client past =>
          rcases past with rfl | rfl <;>
            simpa [emitted] using inv.move frame (fun _ => rfl) (fun _ _ => rfl)
              (by simp [Frame.isUnadmitted, Stage.isAdmitted]) (by simp)
      | number client past same _ =>
          rcases past with rfl | ⟨_, rfl⟩ <;>
            simpa [emitted] using inv.move frame (fun _ => rfl) (fun _ _ => rfl)
              (by simp [Frame.isUnadmitted, Stage.isAdmitted]) (by simp [same])
  | storeLocal frame found applied =>
      exact inv.applied frame rfl (inv.numbered _ _ _ _ _ frame) (inv.unrevoked frame fun _ => rfl)
        found rfl (ChunkStore.applied_version applied) rfl (.inr ⟨_, rfl⟩)
  | storeFailed frame found applied _ =>
      exact inv.applied frame rfl (inv.numbered _ _ _ _ _ frame) (inv.unrevoked frame fun _ => rfl)
        found rfl (ChunkStore.applied_version applied) rfl (.inl rfl)
  | storeForwarded frame past found applied =>
      refine inv.applied frame ?_ rfl (inv.unrevoked frame nofun) found rfl
        (ChunkStore.applied_version applied) rfl (.inl rfl)
      rcases past with rfl | ⟨_, _, rfl⟩ <;> rfl

/-! ## The version and lease handlers -/

theorem Inv.setVersion {s : State} {io : Io} {half : Half} (inv : Inv s)
    (raises : io = .ok → ∀ version ∈ s.fences, version ≤ half.version) :
    Inv { s with replica := (s.replica.setVersion io (half.version) half).2 } := by
  rcases s.replica.setVersion_cases io (half.version) half with
    ⟨_, _, same⟩ | ⟨entry, found, reason, same⟩
  · rw [same]
    exact inv
  · have bound : ∀ version ∈ s.fences, version ≤ half.version := by
      rcases reason with written | equal
      · exact raises written
      · exact equal ▸ inv.stored entry found
    rw [same]
    constructor
    · rintro _ ⟨⟩ version member
      rcases mem_fences.mp member with confirmed | ⟨other, waiting, rfl⟩
      · exact bound version (mem_fences.mpr (.inl confirmed))
      · rcases List.mem_append.mp waiting with old | new
        · exact bound _ (mem_fences.mpr (.inr ⟨other, old, rfl⟩))
        · cases List.mem_singleton.mp new
          exact Nat.le_refl _
    · exact inv.checked
    · exact inv.numbered
    · exact inv.named
    · exact inv.fresh
    · exact inv.admitted
    · exact inv.fenced

theorem Inv.answered {s : State} {events : List Event} {replica : Replica} (inv : Inv s)
    (entry : replica.entry = s.replica.entry) (frame : replica.frame = s.replica.frame)
    (halves : ∀ half ∈ replica.halves, half ∈ s.replica.halves)
    (versions : ∀ version, .versionOk version ∈ events →
      version ∈ s.fences ∧ ∀ op, s.Checked op → version ≤ op.version)
    (noMutation : ∀ mutation, .admitted mutation ∉ events ∧ ∀ version, .applied mutation version ∉ events)
    (unrevoked : ∀ op, s.Admitted op → .revokeOk ∉ events) :
    Inv { s with replica, history := s.history ++ events } := by
  have known : ∀ mutation, .admitted mutation ∈ s.history ++ events → .admitted mutation ∈ s.history := by
    intro mutation member
    exact (List.mem_append.mp member).resolve_right (noMutation mutation).1
  constructor
  · intro e found version member
    refine inv.stored e (entry ▸ found) version (mem_fences.mpr ?_)
    rcases mem_fences.mp member with confirmed | ⟨half, waiting, rfl⟩
    · rcases List.mem_append.mp confirmed with old | new
      · exact .inl old
      · exact mem_fences.mp (versions version new).1
    · exact .inr ⟨half, halves half waiting, rfl⟩
  · intro op checked version member
    have checked' : s.Checked op := by simpa [State.Checked, frame] using checked
    rcases List.mem_append.mp member with old | new
    · exact inv.checked op checked' version old
    · exact (versions version new).2 op checked'
  · simpa [frame] using inv.numbered
  · exact fun mutation member => inv.named mutation (known mutation member)
  · exact fun f found late member => inv.fresh f (frame ▸ found) late (known _ member)
  · intro op admitted
    have admitted' : s.Admitted op := by simpa [State.Admitted, frame] using admitted
    have old := inv.admitted op admitted'
    have none := unrevoked op admitted'
    clear * - old none
    induction events using List.reverseRecOn with
    | nil => simpa using old
    | append_singleton events event ih =>
        simp only [List.mem_append, List.mem_singleton, not_or] at none
        simp only [← List.append_assoc, revoked_concat]
        rintro (⟨revoked, _⟩ | ⟨_, rfl⟩)
        · exact ih none.1 revoked
        · exact none.2 rfl
  · constructor
    · refine along_append ?_ inv.fenced.1
      rintro before event after rfl mutation version rfl
      exact absurd (by simp) ((noMutation mutation).2 version)
    · refine along_append ?_ inv.fenced.2
      rintro before event after rfl mutation version rfl
      exact absurd (by simp) ((noMutation mutation).2 version)

theorem Inv.complete {cfg : Config} {s : State} {half : Half} (inv : Inv s)
    (pending : half ∈ s.replica.halves)
    (apart : ∀ op, s.Checked op → half.version ≤ op.version) :
    Inv { s with
      replica := s.replica.completeHalf cfg s.now half
      history := s.history ++ completed half } := by
  have fence : half.version ∈ s.fences := mem_fences.mpr (.inr ⟨half, pending, rfl⟩)
  have old : ∀ other ∈ s.replica.halves.erase half, other ∈ s.replica.halves :=
    fun _ => List.mem_of_mem_erase
  cases half with
  | grant version lease secondaries tag =>
      refine inv.answered rfl rfl old ?_ (by simp [completed]) (by simp [completed])
      simpa [completed] using ⟨fence, apart⟩
  | update version tag =>
      refine inv.answered rfl rfl old ?_ (by simp [completed]) (by simp [completed])
      simpa [completed] using ⟨fence, apart⟩

theorem inv_step {cfg : Config} {s s' : State} {action : Action} (inv : Inv s)
    (allowed : Allowed s action) (taken : step cfg s action = some s') : Inv s' := by
  cases action with
  | tick elapsed =>
      cases taken
      exact inv.frame_eq rfl rfl rfl rfl rfl
  | push key data =>
      cases taken
      exact inv.frame_eq rfl rfl rfl rfl rfl
  | start origin op =>
      obtain ⟨out, started, rfl⟩ := Option.map_eq_some_iff.mp taken
      exact inv.start started
  | advance io =>
      obtain ⟨out, advanced, rfl⟩ := Option.map_eq_some_iff.mp taken
      exact inv.advance advanced
  | forwarded reached =>
      obtain ⟨out, answered, rfl⟩ := Option.map_eq_some_iff.mp taken
      rw [Replica.forwarded_replica answered]
      exact inv.unlock
  | setVersion io half =>
      cases taken
      exact inv.setVersion allowed
  | complete half =>
      simp only [step, Option.ite_none_right_eq_some, Option.some.injEq] at taken
      obtain ⟨pending, rfl⟩ := taken
      exact inv.complete pending allowed
  | revokeLease =>
      cases taken
      exact inv.answered rfl rfl (fun _ => id) (by simp) (by simp)
        fun op admitted => absurd admitted (allowed op)
  | extend lease =>
      cases taken
      exact inv.frame_eq rfl rfl rfl rfl rfl

/-- In a run in which no fence falls between a check and its store call, both fences hold. -/
theorem fenced_of_allowed {cfg : Config} {s : State}
    (reachable : Reachable (step cfg) Initial Allowed s) : Fenced s.history :=
  (reachable.invariant (fun _ => Initial.inv) fun _ _ _ => inv_step).fenced

/-! ## Two runs -/

instance (s : State) (action : Action) : Decidable (Allowed s action) :=
  match action with
  | .setVersion io half =>
      inferInstanceAs (Decidable (io = .ok → ∀ version ∈ s.fences, version ≤ half.version))
  | .complete half =>
      decidable_of_iff
        (∀ f ∈ s.replica.frame, f.stage.isChecked = true → half.version ≤ f.op.version)
        ⟨fun h op ⟨origin, stage, frame, past⟩ => h ⟨origin, op, stage⟩ frame past,
          fun h f frame past => h f.op ⟨f.origin, f.stage, frame, past⟩⟩
  | .revokeLease =>
      decidable_of_iff
        (∀ f ∈ s.replica.frame, f.op.isClient = true → ¬ f.stage.isAdmitted = true)
        ⟨fun h op ⟨client, origin, stage, frame, past⟩ => h ⟨origin, op, stage⟩ frame client past,
          fun h f frame client past => h f.op ⟨client, f.origin, f.stage, frame, past⟩⟩
  | .tick _ | .push _ _ | .start _ _ | .advance _ | .forwarded _ | .extend _ => isTrue trivial

/-- A write of three bytes under version 2, granted for one second, with `fence` between the lease
check and the rest of the handler. -/
def writeAround (fence : List Action) : List Action :=
  let half := .grant 2 (millis 60000) [] 0
  [.setVersion .ok half, .complete half, .push ⟨"c".toList, 1⟩ [1, 2, 3],
    .start ⟨"p".toList, 1⟩ (.write 2 0 ⟨"c".toList, 1⟩), .advance .ok, .advance .ok] ++ fence ++
    List.replicate 4 (.advance .ok)

def idle : State :=
  { replica := { entry := some { version := 1 }, buffer := { capacity := 100 } }, now := 0 }

/-- A fence that falls between the lease check and the store call stops nothing. -/
theorem fences_fail :
    (∃ s, Reachable (step {}) Initial (fun _ _ => True) s ∧ ¬ Along VersionFence s.history) ∧
      ∃ s, Reachable (step {}) Initial (fun _ _ => True) s ∧ ¬ Along RevocationFence s.history := by
  have start : Initial idle := ⟨rfl, rfl, rfl⟩
  constructor
  · let fence : List Action := [.setVersion .ok (.update 3 1), .complete (.update 3 1)]
    obtain ⟨s, ran⟩ := Option.isSome_iff_exists.mp
      (by decide : (run (step {}) idle (writeAround fence)).isSome = true)
    have history : (run (step {}) idle (writeAround fence)).map State.history =
        some [.leaseGranted, .versionOk 2, .admitted 1, .versionOk 3, .applied 1 2] := by decide
    simp only [ran, Option.map_some, Option.some.injEq] at history
    refine ⟨s, reachable_run_true start ran, fun fenced => ?_⟩
    have := fenced [.leaseGranted, .versionOk 2, .admitted 1, .versionOk 3] _ [] history 1 2 rfl 3
      (by decide)
    omega
  · obtain ⟨s, ran⟩ := Option.isSome_iff_exists.mp
      (by decide : (run (step {}) idle (writeAround [.revokeLease])).isSome = true)
    have history : (run (step {}) idle (writeAround [.revokeLease])).map State.history =
        some [.leaseGranted, .versionOk 2, .admitted 1, .revokeOk, .applied 1 2] := by decide
    simp only [ran, Option.map_some, Option.some.injEq] at history
    refine ⟨s, reachable_run_true start ran, fun fenced => ?_⟩
    exact fenced [.leaseGranted, .versionOk 2, .admitted 1, .revokeOk] _ [] history 1 2 rfl
      ⟨[.leaseGranted, .versionOk 2], [], [], rfl, by simp⟩

/-- The same write with both fences after its store call. -/
theorem fenced_after_write :
    ∃ s, run (step {}) idle (writeAround [] ++ [.setVersion .ok (.update 3 1),
        .complete (.update 3 1), .revokeLease]) = some s ∧
      Event.applied 1 2 ∈ s.history ∧ Event.versionOk 3 ∈ s.history ∧ Event.revokeOk ∈ s.history ∧
      Fenced s.history := by
  obtain ⟨s, ran⟩ := Option.isSome_iff_exists.mp
    (by decide : (run (step {}) idle (writeAround [] ++ [.setVersion .ok (.update 3 1),
      .complete (.update 3 1), .revokeLease])).isSome = true)
  have history : (run (step {}) idle (writeAround [] ++ [.setVersion .ok (.update 3 1),
      .complete (.update 3 1), .revokeLease])).map State.history =
      some [.leaseGranted, .versionOk 2, .admitted 1, .applied 1 2, .versionOk 3, .revokeOk] := by
    decide
  simp only [ran, Option.map_some, Option.some.injEq] at history
  refine ⟨s, ran, by simp [history], by simp [history], by simp [history], ?_⟩
  exact fenced_of_allowed (reachable_run ⟨rfl, rfl, rfl⟩ (by decide) ran)

end Gfs.Chunkserver.Fence
