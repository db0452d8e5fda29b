import Gfs.Chunkserver.Group
import Gfs.Lib.Transition
import Mathlib.Data.List.Nodup

/-!
# The order of a primary's mutations on its secondaries

The runs of any number of chunkservers that are primaries and secondaries of each other, in which an
`ApplyMutation` may be executed after the call of its sender has ended.
-/

namespace Gfs.Chunkserver.Order
open Lib.Transition

inductive Action
  | tick (elapsed : Nat)
  | push (server : ServerId) (key : BufferKey) (data : Bytes)
  | client (server : ServerId) (op : MutationOp)
  | deliver (m : Forward)
  | advance (io : Io) (server : ServerId)
  | accept (reply : Reply)
  | timeout (call : Nat) (secondary : ServerId)
  | finish (server : ServerId)
  | setVersion (io : Io) (server : ServerId) (half : Half)
  | complete (server : ServerId) (half : Half)
  | revokeLease (server : ServerId)
  | extend (server : ServerId) (lease : Duration)
  | remove (server : ServerId)

/-- A `GrantLease` of the master lists a secondary once. -/
def wellFormed : Half → Bool
  | .grant _ _ secondaries _ => decide secondaries.Nodup
  | .update _ _ => true

def step (cfg : Config) (g : Group) : Action → Option Group
  | .tick elapsed => some { g with now := g.now + elapsed }
  | .push server key data => some (g.push server key data)
  | .client server op => g.startClient server op
  | .deliver m => g.deliver m
  | .advance io server => g.advance cfg io server
  | .accept reply => g.accept reply
  | .timeout call secondary => g.timeout call secondary
  | .finish server => g.finish server
  | .setVersion io server half =>
      if wellFormed half then
        some (g.setReplica server ((g.replicas server).setVersion io half.version half).2)
      else none
  | .complete server half =>
      if half ∈ (g.replicas server).halves then
        some (g.setReplica server ((g.replicas server).completeHalf cfg g.now half))
      else none
  | .revokeLease server => some (g.setReplica server (g.replicas server).revokeLease)
  | .extend server lease =>
      some (g.setReplica server ((g.replicas server).extendLease cfg g.now lease))
  | .remove server => some (g.setReplica server (g.replicas server).remove)

def Initial (g : Group) : Prop :=
  (∀ server, (g.replicas server).frame = none ∧ (g.replicas server).halves = [] ∧
    (g.replicas server).slot = none) ∧ g.requests = [] ∧ g.applied = []

/-- The secondaries apply the mutations of a primary in the order of its serial numbers. -/
def InOrder (applied : List Applied) : Prop :=
  applied.Pairwise fun first second => first.server = second.server →
    first.mutation.origin.primary = second.mutation.origin.primary →
    first.mutation.request.serial < second.mutation.request.serial

def upcoming (r : Replica) : Nat := (LeaseTable.nextSerial r.slot).1

/-- A secondary starts on a mutation only while it is the last one that its primary has numbered. -/
def Timely (g : Group) : Action → Prop
  | .deliver m => upcoming (g.replicas m.origin.primary) = m.request.serial + 1
  | _ => True

/-! ## What one chunkserver keeps -/

/-- No list of secondaries names a server twice, and only clients' mutations are numbered. -/
structure Tidy (r : Replica) : Prop where
  slot : ∀ slot ∈ r.slot, slot.secondaries.Nodup
  halves : ∀ half ∈ r.halves, wellFormed half = true
  stage : ∀ f ∈ r.frame, f.stage.secondaries.Nodup
  numbered : ∀ f ∈ r.frame, f.op.isClient = false → f.stage.isNumbered = false

theorem Tidy.update {r r' : Replica} (tidy : Tidy r)
    (slot : ∀ slot ∈ r'.slot, slot.secondaries.Nodup)
    (halves : ∀ half ∈ r'.halves, half ∈ r.halves ∨ wellFormed half = true)
    (frame : ∀ f ∈ r'.frame, r.frame = some f ∨ f.stage = .locked) : Tidy r' := by
  constructor
  · exact slot
  · intro half member
    rcases halves half member with old | new
    · exact tidy.halves half old
    · exact new
  · intro f member
    rcases frame f member with old | fresh
    · exact tidy.stage f old
    · simp [fresh, Stage.secondaries]
  · intro f member
    rcases frame f member with old | fresh
    · exact tidy.numbered f old
    · simp [fresh, Stage.isNumbered]

theorem revoke_nodup (r : Replica) :
    ∀ slot ∈ LeaseTable.revoke r.slot, slot.secondaries.Nodup := by
  intro slot member
  obtain ⟨old, _, rfl⟩ := Option.map_eq_some_iff.mp member
  simp

theorem Tidy.nextSerial {r : Replica} (tidy : Tidy r) :
    (LeaseTable.nextSerial r.slot).2.secondaries.Nodup := by
  cases slot : r.slot with
  | none => simp [LeaseTable.nextSerial]
  | some s => exact tidy.slot s slot

theorem Tidy.follows {now : TimePoint} {r : Replica} {origin : Origin} {op : MutationOp}
    {stage stage' : Stage} {slot : Option Slot} {buffer : DataBuffer} (tidy : Tidy r)
    (frame : r.frame = some ⟨origin, op, stage⟩)
    (follows : Replica.Follows now r op stage stage' slot) :
    Tidy { r with buffer, slot, frame := some ⟨origin, op, stage'⟩ } := by
  have old : stage.secondaries.Nodup := tidy.stage _ frame
  constructor
  · cases follows with
    | number => exact fun _ same => Option.some.inj same ▸ tidy.nextSerial
    | _ => exact tidy.slot
  · exact tidy.halves
  · rintro f ⟨⟩
    cases follows with
    | version => exact List.nodup_nil
    | lease _ checked =>
        obtain ⟨s, found, _, _, rfl⟩ := LeaseTable.check_primary.mp checked
        exact tidy.slot s found
    | receive => exact List.nodup_nil
    | take _ past => rcases past with rfl | rfl <;> exact old
    | number _ past => rcases past with rfl | ⟨_, rfl⟩ <;> exact old
    | _ => exact old
  · rintro f ⟨⟩ notClient
    cases follows with
    | number client => simp [client] at notClient
    | _ => rfl

/-! ## The invariant -/

/-- A mutation of the primary with this serial number is under way to a secondary, or was applied. -/
def Circulates (g : Group) (primary : ServerId) (serial : Nat) : Prop :=
  (∃ m ∈ g.requests, m.origin.primary = primary ∧ m.request.serial = serial) ∨
    (∃ server origin request stage,
      (g.replicas server).frame = some ⟨origin, .apply request, stage⟩ ∧
        origin.primary = primary ∧ request.serial = serial) ∨
    ∃ a ∈ g.applied, a.mutation.origin.primary = primary ∧ a.mutation.request.serial = serial

def key (m : Forward) : ServerId × ServerId × Nat := (m.target, m.origin.primary, m.request.serial)

structure Inv (g : Group) : Prop where
  tidy : ∀ server, Tidy (g.replicas server)
  own : ∀ server, ∀ f ∈ (g.replicas server).frame, f.op.isClient = true → f.origin.primary = server
  below : ∀ primary serial, Circulates g primary serial → serial < upcoming (g.replicas primary)
  latest : ∀ server origin op secondaries request data,
    (g.replicas server).frame = some ⟨origin, op, .numbered secondaries request data⟩ →
      upcoming (g.replicas server) = request.serial + 1 ∧
        ∀ serial, Circulates g server serial → serial < request.serial
  distinct : (g.requests.map key).Nodup
  unapplied : ∀ m ∈ g.requests, ∀ a ∈ g.applied,
    key m ≠ (a.server, a.mutation.origin.primary, a.mutation.request.serial)
  running : ∀ server origin request stage,
    (g.replicas server).frame = some ⟨origin, .apply request, stage⟩ →
      (∀ m ∈ g.requests, key m ≠ (server, origin.primary, request.serial)) ∧
        ∀ a ∈ g.applied, a.server = server → a.mutation.origin.primary = origin.primary →
          a.mutation.request.serial < request.serial
  inOrder : InOrder g.applied

theorem Initial.inv {g : Group} (initial : Initial g) : Inv g := by
  obtain ⟨idle, noRequests, noneApplied⟩ := initial
  constructor
  · intro server
    constructor <;> simp [idle]
  · simp [idle]
  · simp [Circulates, idle, noRequests, noneApplied]
  · simp [idle]
  · simp [noRequests]
  · simp [noRequests]
  · simp [idle]
  · simp [InOrder, noneApplied]

section
variable {g : Group} {server : ServerId} {r : Replica}

theorem Inv.congr {g' : Group} (inv : Inv g) (replicas : g'.replicas = g.replicas)
    (requests : g'.requests = g.requests) (applied : g'.applied = g.applied) : Inv g' := by
  obtain ⟨tidy, own, below, latest, distinct, unapplied, running, inOrder⟩ := inv
  constructor <;> simpa only [Circulates, replicas, requests, applied]

theorem Inv.setReplica (inv : Inv g) (tidy : Tidy r)
    (serial : upcoming (g.replicas server) ≤ upcoming r)
    (own : ∀ f ∈ r.frame, f.op.isClient = true → f.origin.primary = server)
    (forwarded : ∀ f ∈ r.frame, f.op.isClient = false →
      ∃ stage, (g.replicas server).frame = some ⟨f.origin, f.op, stage⟩)
    (latest : ∀ origin op secondaries request data,
      r.frame = some ⟨origin, op, .numbered secondaries request data⟩ →
        upcoming r = request.serial + 1 ∧ ∀ serial, Circulates g server serial → serial < request.serial) :
    Inv (g.setReplica server r) := by
  have circulates : ∀ primary serial, Circulates (g.setReplica server r) primary serial →
      Circulates g primary serial := by
    rintro primary serial (request | ⟨other, origin, request, stage, found, same⟩ | applied)
    · exact .inl request
    · by_cases eq : other = server
      · subst eq
        obtain ⟨stage', old⟩ := forwarded _ (by simpa using found) rfl
        exact .inr (.inl ⟨other, origin, request, stage', old, same⟩)
      · rw [Group.setReplica_of_ne eq] at found
        exact .inr (.inl ⟨other, origin, request, stage, found, same⟩)
    · exact .inr (.inr applied)
  constructor
  · intro other
    by_cases eq : other = server
    · subst eq
      simpa using tidy
    · simpa [Group.setReplica_of_ne eq] using inv.tidy other
  · intro other
    by_cases eq : other = server
    · subst eq
      simpa using own
    · simpa [Group.setReplica_of_ne eq] using inv.own other
  · intro primary serial' h
    have old := inv.below primary serial' (circulates _ _ h)
    by_cases eq : primary = server
    · subst eq
      simpa using old.trans_le serial
    · simpa [Group.setReplica_of_ne eq] using old
  · intro other origin op secondaries request data found
    by_cases eq : other = server
    · subst eq
      obtain ⟨next, last⟩ := latest origin op secondaries request data (by simpa using found)
      exact ⟨by simpa using next, fun k h => last k (circulates _ _ h)⟩
    · rw [Group.setReplica_of_ne eq] at found ⊢
      obtain ⟨next, last⟩ := inv.latest other origin op secondaries request data found
      exact ⟨next, fun k h => last k (circulates _ _ h)⟩
  · exact inv.distinct
  · exact inv.unapplied
  · intro other origin request stage found
    by_cases eq : other = server
    · subst eq
      obtain ⟨stage', old⟩ := forwarded _ (by simpa using found) rfl
      exact inv.running other origin request stage' old
    · rw [Group.setReplica_of_ne eq] at found
      exact inv.running other origin request stage found
  · exact inv.inOrder

theorem Inv.setReplica_frame (inv : Inv g) (tidy : Tidy r)
    (serial : upcoming r = upcoming (g.replicas server))
    (frame : ∀ f ∈ r.frame, (g.replicas server).frame = some f) :
    Inv (g.setReplica server r) := by
  refine inv.setReplica tidy serial.ge (fun f member => inv.own server f (frame f member))
    (fun f member _ => ⟨f.stage, frame f member⟩) ?_
  intro origin op secondaries request data found
  rw [serial]
  exact inv.latest server origin op secondaries request data (frame _ found)

theorem Inv.send {origin : Origin} {request : ApplyMutationRequest} {secondaries : List ServerId}
    (inv : Inv g) (nodup : secondaries.Nodup)
    (fresh : ∀ serial, Circulates g origin.primary serial → serial < request.serial)
    (next : request.serial < upcoming (g.replicas origin.primary))
    (past : ∀ f ∈ (g.replicas origin.primary).frame, ∀ secondaries request data,
      f.stage ≠ .numbered secondaries request data) :
    Inv { g with requests := g.requests ++ secondaries.map (⟨·, origin, request⟩) } := by
  have circulates : ∀ primary serial,
      Circulates { g with requests := g.requests ++ secondaries.map (⟨·, origin, request⟩) }
        primary serial →
      Circulates g primary serial ∨ primary = origin.primary ∧ serial = request.serial := by
    rintro primary serial (⟨m, member, rfl, rfl⟩ | running | applied)
    · rcases List.mem_append.mp member with old | new
      · exact .inl (.inl ⟨m, old, rfl, rfl⟩)
      · obtain ⟨_, _, rfl⟩ := List.mem_map.mp new
        exact .inr ⟨rfl, rfl⟩
    · exact .inl (.inr (.inl running))
    · exact .inl (.inr (.inr applied))
  have unsent : ∀ target serial, (∃ m ∈ g.requests, key m = (target, origin.primary, serial)) →
      serial < request.serial := by
    rintro target serial ⟨m, member, same⟩
    simp only [key, Prod.mk.injEq] at same
    exact fresh serial (.inl ⟨m, member, same.2⟩)
  constructor
  · exact inv.tidy
  · exact inv.own
  · intro primary serial h
    rcases circulates primary serial h with old | ⟨rfl, rfl⟩
    · exact inv.below primary serial old
    · exact next
  · intro other origin' op secondaries' request' data found
    obtain ⟨upto, last⟩ := inv.latest other origin' op secondaries' request' data found
    refine ⟨upto, fun serial h => ?_⟩
    rcases circulates other serial h with old | ⟨rfl, rfl⟩
    · exact last serial old
    · exact absurd rfl (past _ found _ _ _)
  · rw [List.map_append, List.nodup_append]
    refine ⟨inv.distinct, ?_, ?_⟩
    · rw [List.map_map]
      exact nodup.map fun _ _ same => congrArg Prod.fst same
    · rintro _ old _ new rfl
      obtain ⟨m, member, same⟩ := List.mem_map.mp old
      simp only [List.map_map, List.mem_map, Function.comp_apply] at new
      obtain ⟨target, _, rfl⟩ := new
      exact absurd (unsent target request.serial ⟨m, member, same⟩) (lt_irrefl _)
  · intro m member a applied same
    rcases List.mem_append.mp member with old | new
    · exact inv.unapplied m old a applied same
    · obtain ⟨target, _, rfl⟩ := List.mem_map.mp new
      simp only [key, Prod.mk.injEq] at same
      exact (fresh _ (.inr (.inr ⟨a, applied, same.2.1.symm, rfl⟩))).ne same.2.2.symm
  · intro other origin' request' stage found
    obtain ⟨apart, last⟩ := inv.running other origin' request' stage found
    refine ⟨fun m member same => ?_, last⟩
    rcases List.mem_append.mp member with old | new
    · exact apart m old same
    · obtain ⟨target, _, rfl⟩ := List.mem_map.mp new
      simp only [key, Prod.mk.injEq] at same
      exact (fresh _ (.inr (.inl ⟨other, _, _, _, found, same.2.1.symm, rfl⟩))).ne same.2.2.symm
  · exact inv.inOrder

theorem Inv.drop (inv : Inv g) (m : Forward) : Inv { g with requests := g.requests.erase m } := by
  have less : ∀ {other}, other ∈ g.requests.erase m → other ∈ g.requests := List.mem_of_mem_erase
  have circulates : ∀ {primary serial}, Circulates { g with requests := g.requests.erase m }
      primary serial → Circulates g primary serial := by
    rintro primary serial (⟨other, member, same⟩ | running | applied)
    · exact .inl ⟨other, less member, same⟩
    · exact .inr (.inl running)
    · exact .inr (.inr applied)
  constructor
  · exact inv.tidy
  · exact inv.own
  · exact fun primary serial h => inv.below primary serial (circulates h)
  · intro other origin op secondaries request data found
    obtain ⟨next, last⟩ := inv.latest other origin op secondaries request data found
    exact ⟨next, fun serial h => last serial (circulates h)⟩
  · exact inv.distinct.sublist (List.erase_sublist.map key)
  · exact fun other member => inv.unapplied other (less member)
  · intro other origin request stage found
    obtain ⟨apart, last⟩ := inv.running other origin request stage found
    exact ⟨fun n member => apart n (less member), last⟩
  · exact inv.inOrder

/-- A secondary takes the mutation lock for a request that is the last one of its primary. -/
theorem Inv.lock {m : Forward} (inv : Inv g) (pending : m ∈ g.requests)
    (timely : upcoming (g.replicas m.origin.primary) = m.request.serial + 1) (tidy : Tidy r)
    (serial : upcoming r = upcoming (g.replicas m.target))
    (frame : r.frame = some ⟨m.origin, .apply m.request, .locked⟩) :
    Inv { g.setReplica m.target r with requests := g.requests.erase m } := by
  have circulates : ∀ primary serial,
      Circulates { g.setReplica m.target r with requests := g.requests.erase m } primary serial →
      Circulates g primary serial := by
    rintro primary serial (⟨other, member, same⟩ | ⟨other, origin, request, stage, found, same⟩ | applied)
    · exact .inl ⟨other, List.mem_of_mem_erase member, same⟩
    · by_cases eq : other = m.target
      · subst eq
        simp only [Group.setReplica_self, frame, Option.some.injEq, Frame.mk.injEq,
          MutationOp.apply.injEq] at found
        obtain ⟨rfl, rfl, _⟩ := found
        exact .inl ⟨m, pending, same⟩
      · rw [Group.setReplica_of_ne eq] at found
        exact .inr (.inl ⟨other, origin, request, stage, found, same⟩)
    · exact .inr (.inr applied)
  have up : ∀ other, upcoming ((g.setReplica m.target r).replicas other) =
      upcoming (g.replicas other) := by
    intro other
    by_cases eq : other = m.target
    · subst eq
      simpa using serial
    · rw [Group.setReplica_of_ne eq]
  constructor
  · intro other
    by_cases eq : other = m.target
    · subst eq
      simpa using tidy
    · simpa [Group.setReplica_of_ne eq] using inv.tidy other
  · intro other
    by_cases eq : other = m.target
    · subst eq
      simp [frame, MutationOp.isClient]
    · simpa [Group.setReplica_of_ne eq] using inv.own other
  · intro primary k h
    rw [up]
    exact inv.below primary k (circulates _ _ h)
  · intro other origin op secondaries request data found
    by_cases eq : other = m.target
    · subst eq
      simp [frame] at found
    · rw [Group.setReplica_of_ne eq] at found ⊢
      obtain ⟨next, last⟩ := inv.latest other origin op secondaries request data found
      exact ⟨next, fun k h => last k (circulates _ _ h)⟩
  · exact inv.distinct.sublist (List.erase_sublist.map key)
  · exact fun other member => inv.unapplied other (List.mem_of_mem_erase member)
  · intro other origin request stage found
    by_cases eq : other = m.target
    · subst eq
      simp only [Group.setReplica_self, frame, Option.some.injEq, Frame.mk.injEq,
        MutationOp.apply.injEq] at found
      obtain ⟨rfl, rfl, _⟩ := found
      constructor
      · intro other member same
        have once := List.inj_on_of_nodup_map inv.distinct (List.mem_of_mem_erase member) pending same
        exact absurd (once ▸ member) (List.Nodup.not_mem_erase inv.distinct.of_map)
      · intro a applied server primary
        have bound := inv.below _ _ (.inr (.inr ⟨a, applied, primary, rfl⟩))
        have apart := inv.unapplied m pending a applied
        simp only [key, server, primary, ne_eq, Prod.mk.injEq, true_and] at apart
        omega
    · rw [Group.setReplica_of_ne eq] at found
      obtain ⟨apart, last⟩ := inv.running other origin request stage found
      exact ⟨fun n member => apart n (List.mem_of_mem_erase member), last⟩
  · exact inv.inOrder

theorem Inv.record {origin : Origin} {request : ApplyMutationRequest} {stage : Stage} (inv : Inv g)
    (frame : (g.replicas server).frame = some ⟨origin, .apply request, stage⟩) (tidy : Tidy r)
    (serial : upcoming r = upcoming (g.replicas server)) (through : r.frame = none) :
    Inv { g.setReplica server r with applied := g.applied ++ [⟨server, ⟨origin, request⟩⟩] } := by
  have circulates : ∀ primary serial,
      Circulates { g.setReplica server r with
        applied := g.applied ++ [⟨server, ⟨origin, request⟩⟩] } primary serial →
      Circulates g primary serial := by
    rintro primary serial (m | ⟨other, origin', request', stage', found, same⟩ | ⟨a, member, same⟩)
    · exact .inl m
    · by_cases eq : other = server
      · subst eq
        simp [through] at found
      · rw [Group.setReplica_of_ne eq] at found
        exact .inr (.inl ⟨other, origin', request', stage', found, same⟩)
    · rcases List.mem_append.mp member with old | new
      · exact .inr (.inr ⟨a, old, same⟩)
      · cases List.mem_singleton.mp new
        exact .inr (.inl ⟨server, origin, request, stage, frame, same⟩)
  have up : ∀ other, upcoming ((g.setReplica server r).replicas other) =
      upcoming (g.replicas other) := by
    intro other
    by_cases eq : other = server
    · subst eq
      simpa using serial
    · rw [Group.setReplica_of_ne eq]
  obtain ⟨apart, last⟩ := inv.running server origin request stage frame
  constructor
  · intro other
    by_cases eq : other = server
    · subst eq
      simpa using tidy
    · simpa [Group.setReplica_of_ne eq] using inv.tidy other
  · intro other
    by_cases eq : other = server
    · subst eq
      simp [through]
    · simpa [Group.setReplica_of_ne eq] using inv.own other
  · intro primary k h
    rw [up]
    exact inv.below primary k (circulates _ _ h)
  · intro other origin' op secondaries request' data found
    by_cases eq : other = server
    · subst eq
      simp [through] at found
    · rw [Group.setReplica_of_ne eq] at found ⊢
      obtain ⟨next, bound⟩ := inv.latest other origin' op secondaries request' data found
      exact ⟨next, fun k h => bound k (circulates _ _ h)⟩
  · exact inv.distinct
  · intro m member a applied
    rcases List.mem_append.mp applied with old | new
    · exact inv.unapplied m member a old
    · cases List.mem_singleton.mp new
      exact apart m member
  · intro other origin' request' stage' found
    by_cases eq : other = server
    · subst eq
      simp [through] at found
    · rw [Group.setReplica_of_ne eq] at found
      obtain ⟨apart', last'⟩ := inv.running other origin' request' stage' found
      refine ⟨apart', fun a applied same primary => ?_⟩
      rcases List.mem_append.mp applied with old | new
      · exact last' a old same primary
      · cases List.mem_singleton.mp new
        exact absurd same.symm eq
  · refine List.pairwise_append.mpr ⟨inv.inOrder, List.pairwise_singleton _ _, ?_⟩
    intro a applied b new same primary
    cases List.mem_singleton.mp new
    exact last a applied same primary

theorem Inv.move {origin : Origin} {op : MutationOp} {stage stage' : Stage} {slot : Option Slot}
    (inv : Inv g) (frame : (g.replicas server).frame = some ⟨origin, op, stage⟩)
    (follows : Replica.Follows g.now (g.replicas server) op stage stage' slot)
    (buffer : DataBuffer) :
    Inv (g.setReplica server
      { g.replicas server with buffer, slot, frame := some ⟨origin, op, stage'⟩ }) := by
  refine inv.setReplica ((inv.tidy server).follows frame follows) ?_ ?_ ?_ ?_
  · cases follows with
    | number => exact Nat.le_succ _
    | _ => exact le_rfl
  · rintro f ⟨⟩ client
    exact inv.own server ⟨origin, op, stage⟩ frame client
  · rintro f ⟨⟩ _
    exact ⟨stage, frame⟩
  · rintro origin' op' secondaries request data ⟨⟩
    cases follows with
    | number _ _ _ numbered =>
        exact ⟨congrArg (· + 1) numbered.symm, fun k h => numbered ▸ inv.below server k h⟩

theorem Inv.forward {origin : Origin} {op : MutationOp} {secondaries : List ServerId}
    {request : ApplyMutationRequest} {data : Bytes} {entry : Option ChunkEntry} (inv : Inv g)
    (frame : (g.replicas server).frame =
      some ⟨origin, op, .numbered secondaries request data⟩) :
    Inv { g.setReplica server { g.replicas server with
            entry, frame := some ⟨origin, op, .forwarding secondaries request⟩ } with
          requests := g.requests ++ secondaries.map (⟨·, origin, request⟩) } := by
  have tidy := inv.tidy server
  have client : op.isClient = true := by
    by_contra other
    simpa [Stage.isNumbered] using tidy.numbered _ frame (by simpa using other)
  obtain ⟨next, last⟩ := inv.latest server origin op secondaries request data frame
  obtain rfl : origin.primary = server := inv.own server _ frame client
  have local_step : Inv (g.setReplica origin.primary { g.replicas origin.primary with
      entry, frame := some ⟨origin, op, .forwarding secondaries request⟩ }) := by
    refine inv.setReplica ?_ le_rfl ?_ ?_ (by simp)
    · refine ⟨tidy.slot, tidy.halves, ?_, ?_⟩
      · rintro f ⟨⟩
        exact tidy.stage ⟨origin, op, .numbered secondaries request data⟩ frame
      · rintro f ⟨⟩ other
        simp [client] at other
    · rintro f ⟨⟩ _
      rfl
    · rintro f ⟨⟩ other
      simp [client] at other
  refine local_step.send (tidy.stage _ frame) ?_ ?_ (by simp)
  · rintro serial (m | ⟨other, origin', request', stage, found, same⟩ | applied)
    · exact last serial (.inl m)
    · by_cases eq : other = origin.primary
      · subst eq
        simp only [Group.setReplica_self, Option.some.injEq, Frame.mk.injEq] at found
        rw [found.2.1] at client
        cases client
      · rw [Group.setReplica_of_ne eq] at found
        exact last serial (.inr (.inl ⟨other, origin', request', stage, found, same⟩))
    · exact last serial (.inr (.inr applied))
  · rw [Group.setReplica_self]
    exact next ▸ Nat.lt_succ_self _

theorem stored_client {f : Frame} {out : Outcome} (client : f.op.isClient = true) :
    Group.stored server f out = [] := by
  cases op : f.op <;> simp_all [Group.stored, MutationOp.isClient]

theorem Inv.advance {cfg : Config} {io : Io} {g' : Group} (inv : Inv g)
    (h : g.advance cfg io server = some g') : Inv g' := by
  obtain ⟨f, out, frame, advanced, rfl⟩ := Group.advance_cases h
  have tidy := inv.tidy server
  have idle : ∀ entry, Tidy { g.replicas server with entry, frame := none } := fun entry =>
    tidy.update tidy.slot (fun _ => .inl) (by simp)
  have unlock : ∀ entry, Inv (g.setReplica server
      { g.replicas server with entry, frame := none }) := fun entry =>
    inv.setReplica_frame (idle entry) rfl (by simp)
  have client : ∀ origin op secondaries request data, (g.replicas server).frame =
      some ⟨origin, op, .numbered secondaries request data⟩ → f.op.isClient = true := by
    intro origin op secondaries request data found
    cases frame.symm.trans found
    by_contra other
    simpa [Stage.isNumbered] using tidy.numbered _ found (by simpa using other)
  cases Replica.advance_progress advanced with
  | answer _ _ =>
      refine (unlock _).congr rfl ?_ ?_
      · simp [Group.sent, Group.setReplica]
      · cases f.op <;> simp [Group.stored, Group.setReplica]
  | @move origin op stage stage' slot buffer found follows =>
      refine (inv.move found follows buffer).congr rfl ?_ ?_
      · cases follows <;> simp [Group.sent, Group.setReplica]
      · cases f.op <;> simp [Group.stored, Group.setReplica]
  | storeLocal found _ _ =>
      refine (inv.forward found).congr rfl ?_ ?_
      · simp [Group.sent]
      · simp [stored_client (client _ _ _ _ _ found), Group.setReplica]
  | storeFailed found _ _ _ =>
      refine (unlock _).congr rfl ?_ ?_
      · simp [Group.sent, Group.setReplica]
      · simp [stored_client (client _ _ _ _ _ found), Group.setReplica]
  | storeForwarded found _ _ _ =>
      refine (inv.record found (idle _) rfl rfl).congr rfl ?_ ?_
      · simp [Group.sent, Group.setReplica]
      · cases frame.symm.trans found
        simp [Group.stored]

theorem Inv.startClient {op : MutationOp} {g' : Group} (inv : Inv g)
    (h : g.startClient server op = some g') : Inv g' := by
  simp only [Group.startClient, Option.ite_none_right_eq_some, Option.map_eq_some_iff] at h
  obtain ⟨client, out, started, rfl⟩ := h
  have tidy := inv.tidy server
  rcases Replica.start_cases started with ⟨_, rfl⟩ | ⟨_, rfl⟩
  · exact (inv.setReplica_frame tidy rfl fun _ => id).congr rfl rfl rfl
  · have locked : Inv (g.setReplica server
        { g.replicas server with frame := some ⟨⟨server, g.calls⟩, op, .locked⟩ }) := by
      refine inv.setReplica ?_ le_rfl ?_ ?_ (by simp)
      · exact tidy.update tidy.slot (fun _ => .inl) fun f member => .inr (by cases member; rfl)
      · rintro f ⟨⟩ _
        rfl
      · rintro f ⟨⟩ other
        simp [client] at other
    exact locked.congr rfl rfl rfl

theorem Inv.deliver {m : Forward} {g' : Group} (inv : Inv g) (h : g.deliver m = some g')
    (timely : upcoming (g.replicas m.origin.primary) = m.request.serial + 1) : Inv g' := by
  simp only [Group.deliver, Option.ite_none_right_eq_some, Option.map_eq_some_iff] at h
  obtain ⟨pending, out, started, rfl⟩ := h
  have tidy := inv.tidy m.target
  rcases Replica.start_cases started with ⟨_, rfl⟩ | ⟨_, rfl⟩
  · exact (inv.drop m).congr (by simp [Group.setReplica]) rfl rfl
  · have locked : Inv { g.setReplica m.target { g.replicas m.target with
        frame := some ⟨m.origin, .apply m.request, .locked⟩ } with
          requests := g.requests.erase m } := by
      refine inv.lock pending timely ?_ rfl rfl
      exact tidy.update tidy.slot (fun _ => .inl) fun f member => .inr (by cases member; rfl)
    exact locked.congr rfl rfl rfl

theorem Inv.finish {g' : Group} (inv : Inv g) (h : g.finish server = some g') : Inv g' := by
  obtain ⟨_, _, _, _, _, _, rfl⟩ := Group.finish_cases h
  have tidy := inv.tidy server
  have unlocked : Inv (g.setReplica server { g.replicas server with frame := none }) :=
    inv.setReplica_frame (tidy.update tidy.slot (fun _ => .inl) (by simp)) rfl (by simp)
  exact unlocked.congr rfl rfl rfl

theorem Tidy.complete {cfg : Config} {now : TimePoint} {half : Half} (tidy : Tidy r)
    (pending : half ∈ r.halves) : Tidy (r.completeHalf cfg now half) := by
  have rest : ∀ other ∈ r.halves.erase half, other ∈ r.halves ∨ wellFormed other = true :=
    fun _ member => .inl (List.mem_of_mem_erase member)
  cases half with
  | grant version lease secondaries tag =>
      refine tidy.update ?_ rest fun _ => .inl
      rintro slot ⟨⟩
      exact of_decide_eq_true (tidy.halves _ pending)
  | update version tag => exact tidy.update (revoke_nodup r) rest fun _ => .inl

theorem upcoming_complete {cfg : Config} {now : TimePoint} {half : Half} :
    upcoming (r.completeHalf cfg now half) = upcoming r := by
  cases half <;> cases slot : r.slot <;> simp [upcoming, Replica.completeHalf, LeaseTable.nextSerial,
    LeaseTable.grant, LeaseTable.revoke, slot]

theorem inv_step {cfg : Config} {g' : Group} {action : Action} (inv : Inv g)
    (timely : Timely g action) (taken : step cfg g action = some g') : Inv g' := by
  cases action with
  | tick elapsed =>
      cases taken
      exact inv.congr rfl rfl rfl
  | push server key data =>
      cases taken
      exact inv.setReplica_frame ((inv.tidy server).update (inv.tidy server).slot (fun _ => .inl)
        fun _ => .inl) rfl fun _ => id
  | client server op => exact inv.startClient taken
  | deliver m => exact inv.deliver taken timely
  | advance io server => exact inv.advance taken
  | accept reply =>
      simp only [step, Group.accept, Option.ite_none_right_eq_some, Option.some.injEq] at taken
      obtain ⟨_, rfl⟩ := taken
      exact inv.congr rfl rfl rfl
  | timeout call secondary =>
      simp only [step, Group.timeout, Option.ite_none_right_eq_some, Option.some.injEq] at taken
      obtain ⟨_, rfl⟩ := taken
      exact inv.congr rfl rfl rfl
  | finish server => exact inv.finish taken
  | setVersion io server half =>
      simp only [step, Option.ite_none_right_eq_some, Option.some.injEq] at taken
      obtain ⟨formed, rfl⟩ := taken
      have tidy := inv.tidy server
      rcases (g.replicas server).setVersion_cases io half.version half with
        ⟨_, _, same⟩ | ⟨entry, _, _, same⟩
      · rw [same]
        exact inv.setReplica_frame tidy rfl fun _ => id
      · rw [same]
        refine inv.setReplica_frame (tidy.update tidy.slot ?_ fun _ => .inl) rfl fun _ => id
        intro other member
        rcases List.mem_append.mp member with old | new
        · exact .inl old
        · exact .inr (List.mem_singleton.mp new ▸ formed)
  | complete server half =>
      simp only [step, Option.ite_none_right_eq_some, Option.some.injEq] at taken
      obtain ⟨pending, rfl⟩ := taken
      refine inv.setReplica_frame ((inv.tidy server).complete pending) upcoming_complete ?_
      cases half <;> exact fun _ => id
  | revokeLease server =>
      cases taken
      refine inv.setReplica_frame ((inv.tidy server).update (revoke_nodup _) (fun _ => .inl)
        fun _ => .inl) ?_ fun _ => id
      cases slot : (g.replicas server).slot <;>
        simp [upcoming, Replica.revokeLease, LeaseTable.nextSerial, LeaseTable.revoke, slot]
  | extend server lease =>
      cases taken
      have kept : ∀ slot ∈ ((g.replicas server).extendLease cfg g.now lease).slot,
          slot.secondaries.Nodup := by
        intro slot member
        obtain ⟨old, found, rfl⟩ := Option.map_eq_some_iff.mp member
        split <;> exact (inv.tidy server).slot old found
      refine inv.setReplica_frame ((inv.tidy server).update kept (fun _ => .inl) fun _ => .inl) ?_
        fun _ => id
      cases slot : (g.replicas server).slot with
      | none => simp [upcoming, Replica.extendLease, LeaseTable.extend, slot]
      | some s =>
          cases held : s.held <;>
            simp [upcoming, Replica.extendLease, LeaseTable.nextSerial, LeaseTable.extend, slot, held]
  | remove server =>
      cases taken
      exact inv.setReplica_frame ((inv.tidy server).update (inv.tidy server).slot (fun _ => .inl)
        fun _ => .inl) rfl fun _ => id

end

/-- The secondaries apply every primary's mutations in its order if none of them starts on a
mutation after its primary has numbered the next. -/
theorem inOrder_of_timely {cfg : Config} {g : Group}
    (reachable : Reachable (step cfg) Initial Timely g) : InOrder g.applied :=
  (reachable.invariant (fun _ => Initial.inv) fun _ _ _ => inv_step).inOrder

/-! ## Two runs -/

instance (g : Group) (action : Action) : Decidable (Timely g action) :=
  match action with
  | .deliver m =>
      inferInstanceAs (Decidable (upcoming (g.replicas m.origin.primary) = m.request.serial + 1))
  | .tick _ | .push _ _ _ | .client _ _ | .advance _ _ | .accept _ | .timeout _ _ | .finish _
  | .setVersion _ _ _ | .complete _ _ | .revokeLease _ | .extend _ _ | .remove _ => isTrue trivial

def p : ServerId := "p".toList
def s : ServerId := "s".toList

def pair : Group :=
  { now := 0
    replicas := fun _ => { entry := some { version := 1 }, buffer := { capacity := 100 } } }

/-- The chunkserver `p` becomes the primary at version 2, with `s` as its secondary. -/
def lease : List Action :=
  let half := .grant 2 (millis 60000) [s] 0
  [.setVersion .ok p half, .complete p half, .setVersion .ok s (.update 2 1),
    .complete s (.update 2 1)]

/-- The client's call with this number writes one byte at the start of the chunk on the primary. -/
def writeByte (call : Nat) (byte : UInt8) : List Action :=
  [.push p ⟨[], call⟩ [byte], .push s ⟨[], call⟩ [byte], .client p (.write 2 0 ⟨[], call⟩)] ++
    List.replicate 6 (.advance .ok p)

/-- What `writeByte` sends. -/
def forwardOf (call : Nat) : Forward :=
  ⟨s, ⟨p, call⟩, { version := 2, serial := call + 1, kind := .write, offset := 0, key := ⟨[], call⟩ }⟩

def serve (call : Nat) : List Action :=
  [.deliver (forwardOf call)] ++ List.replicate 3 (.advance .ok s)

/-- The first call times out, the second is acknowledged, then the secondary executes the first. -/
def overtaken : List Action :=
  lease ++ writeByte 0 7 ++ [.timeout 0 s, .finish p] ++
    writeByte 1 9 ++ serve 1 ++ [.accept ⟨1, s, true⟩, .finish p] ++ serve 0

theorem inOrder_fails :
    ∃ g, Reachable (step {}) Initial (fun _ _ => True) g ∧ ¬ InOrder g.applied ∧
      g.acked = [⟨⟨p, 1⟩, (forwardOf 1).request⟩] ∧
      (g.replicas p).entry.map (·.data) = some [9] ∧
      (g.replicas s).entry.map (·.data) = some [7] := by
  obtain ⟨g, ran⟩ := Option.isSome_iff_exists.mp
    (by decide : (run (step {}) pair overtaken).isSome = true)
  have last : (run (step {}) pair overtaken).map (fun g => (g.applied, g.acked,
      (g.replicas p).entry.map (·.data), (g.replicas s).entry.map (·.data))) =
      some ([⟨s, ⟨p, 1⟩, (forwardOf 1).request⟩, ⟨s, ⟨p, 0⟩, (forwardOf 0).request⟩],
        [⟨⟨p, 1⟩, (forwardOf 1).request⟩], some [9], some [7]) := by decide
  simp only [ran, Option.map_some, Option.some.injEq, Prod.mk.injEq] at last
  obtain ⟨applied, acked, primary, secondary⟩ := last
  refine ⟨g, reachable_run_true ⟨fun _ => ⟨rfl, rfl, rfl⟩, rfl, rfl⟩ ran, ?_, acked, primary, secondary⟩
  rw [applied]
  unfold InOrder
  decide

def timelyWrites : List Action :=
  lease ++ writeByte 0 7 ++ serve 0 ++ [.accept ⟨0, s, true⟩, .finish p] ++ writeByte 1 9 ++ serve 1

theorem inOrder_timelyWrites :
    ∃ g, run (step {}) pair timelyWrites = some g ∧ g.applied.length = 2 ∧ InOrder g.applied := by
  obtain ⟨g, ran⟩ := Option.isSome_iff_exists.mp
    (by decide : (run (step {}) pair timelyWrites).isSome = true)
  have two : (run (step {}) pair timelyWrites).map (·.applied.length) = some 2 := by decide
  simp only [ran, Option.map_some, Option.some.injEq] at two
  exact ⟨g, ran, two, inOrder_of_timely
    (reachable_run ⟨fun _ => ⟨rfl, rfl, rfl⟩, rfl, rfl⟩ (by decide) ran)⟩

end Gfs.Chunkserver.Order
