import Gfs.Chunkserver.Replica
import Mathlib.Logic.Function.Basic

/-!
# The chunkservers that hold one chunk, and the mutations between them

`ForwardMutation` sends an `ApplyMutationRequest` to every secondary at once and waits until each
call has ended. A request may be executed late or never, its answer may be lost, and a call that
ends without an answer counts as failed; the request of such a call can still be executed.
-/

namespace Gfs.Chunkserver

/-- An `ApplyMutationRequest` on its way to `target`. -/
structure Forward where
  target : ServerId
  origin : Origin
  request : ApplyMutationRequest
deriving DecidableEq

structure Reply where
  call : Nat
  secondary : ServerId
  ok : Bool
deriving DecidableEq

/-- The store call of an `ApplyMutation`. -/
structure Applied where
  server : ServerId
  mutation : Mutation
deriving DecidableEq

/-- `calls` numbers the mutations of clients; `applied` and `acked` are history variables, the store
calls of the secondaries and the mutations answered with `OK`. -/
structure Group where
  now : TimePoint
  replicas : ServerId → Replica
  calls : Nat := 0
  requests : List Forward := []
  replies : List Reply := []
  ended : List Reply := []
  applied : List Applied := []
  acked : List Mutation := []

namespace Group

def setReplica (g : Group) (server : ServerId) (r : Replica) : Group :=
  { g with replicas := Function.update g.replicas server r }

def push (g : Group) (server : ServerId) (key : BufferKey) (data : Bytes) : Group :=
  let r := g.replicas server
  g.setReplica server { r with buffer := r.buffer.put key data }

/-- A `Write` or `RecordAppend` of a client. -/
def startClient (g : Group) (server : ServerId) (op : MutationOp) : Option Group :=
  if op.isClient then
    ((g.replicas server).start ⟨server, g.calls⟩ op).map fun out =>
      { g.setReplica server out.replica with calls := g.calls + 1 }
  else none

def deliver (g : Group) (m : Forward) : Option Group :=
  if m ∈ g.requests then
    ((g.replicas m.target).start m.origin (.apply m.request)).map fun out =>
      { g.setReplica m.target out.replica with
        requests := g.requests.erase m
        replies := g.replies ++
          if out.response.isSome then [⟨m.origin.call, m.target, false⟩] else [] }
  else none

/-- The requests that a handler sends when it starts to forward. -/
def sent (out : Outcome) : List Forward :=
  match out.replica.frame with
  | some ⟨origin, _, .forwarding secondaries request⟩ => secondaries.map (⟨·, origin, request⟩)
  | _ => []

def replied (server : ServerId) (f : Frame) (out : Outcome) : List Reply :=
  match f.op, out.response with
  | .apply _, some response => [⟨f.origin.call, server, response.code = .ok⟩]
  | _, _ => []

def stored (server : ServerId) (f : Frame) (out : Outcome) : List Applied :=
  match f.op, out.stored with
  | .apply _, some mutation => [⟨server, mutation⟩]
  | _, _ => []

def advance (cfg : Config) (io : Io) (g : Group) (server : ServerId) : Option Group :=
  match (g.replicas server).frame, (g.replicas server).advance cfg g.now io with
  | some f, some out =>
      some { g.setReplica server out.replica with
        requests := g.requests ++ sent out
        replies := g.replies ++ replied server f out
        applied := g.applied ++ stored server f out }
  | _, _ => none

def isOpen (g : Group) (call : Nat) (secondary : ServerId) : Bool :=
  g.ended.all fun e => ¬ (e.call = call ∧ e.secondary = secondary)

/-- The answer of a secondary reaches the primary before the call has ended. -/
def accept (g : Group) (reply : Reply) : Option Group :=
  if reply ∈ g.replies ∧ g.isOpen reply.call reply.secondary then
    some { g with ended := g.ended ++ [reply] }
  else none

/-- The deadline of a call passes, or its connection breaks. -/
def timeout (g : Group) (call : Nat) (secondary : ServerId) : Option Group :=
  if call < g.calls ∧ g.isOpen call secondary then
    some { g with ended := g.ended ++ [⟨call, secondary, false⟩] }
  else none

/-- Every call of `ForwardMutation` has ended: the primary answers its client. -/
def finish (g : Group) (server : ServerId) : Option Group :=
  match (g.replicas server).frame with
  | some ⟨origin, _, .forwarding secondaries request⟩ =>
      if secondaries.all fun c => ¬ g.isOpen origin.call c then
        let reached := secondaries.all fun c => ⟨origin.call, c, true⟩ ∈ g.ended
        ((g.replicas server).forwarded reached).map fun out =>
          { g.setReplica server out.replica with
            acked := g.acked ++
              if out.response.any (·.code = .ok) then [⟨origin, request⟩] else [] }
      else none
  | _ => none

/-! ## What the mutations leave alone -/

structure Keeps (g g' : Group) : Prop where
  now : g'.now = g.now
  replica : ∀ server, Replica.Keeps (g.replicas server) (g'.replicas server)

section
variable {g g' : Group} {server : ServerId} {r : Replica}

@[simp] theorem setReplica_self : (g.setReplica server r).replicas server = r := by
  simp [setReplica]

theorem setReplica_of_ne {other : ServerId} (h : other ≠ server) :
    (g.setReplica server r).replicas other = g.replicas other := by
  simp [setReplica, h]

theorem setReplica_keeps (keeps : Replica.Keeps (g.replicas server) r) (other : ServerId) :
    Replica.Keeps (g.replicas other) ((g.setReplica server r).replicas other) := by
  by_cases eq : other = server
  · subst eq
    rw [setReplica_self]
    exact keeps
  · rw [setReplica_of_ne eq]
    exact .refl _

theorem push_keeps (key : BufferKey) (data : Bytes) : Keeps g (g.push server key data) :=
  ⟨rfl, setReplica_keeps ⟨rfl, rfl, rfl, rfl, rfl⟩⟩

theorem startClient_keeps {op : MutationOp} (h : g.startClient server op = some g') :
    Keeps g g' := by
  simp only [startClient, Option.ite_none_right_eq_some, Option.map_eq_some_iff] at h
  obtain ⟨_, out, started, rfl⟩ := h
  exact ⟨rfl, setReplica_keeps (Replica.start_keeps started)⟩

theorem deliver_keeps {m : Forward} (h : g.deliver m = some g') : Keeps g g' := by
  simp only [deliver, Option.ite_none_right_eq_some, Option.map_eq_some_iff] at h
  obtain ⟨_, out, started, rfl⟩ := h
  exact ⟨rfl, setReplica_keeps (Replica.start_keeps started)⟩

theorem advance_cases {cfg : Config} {io : Io} (h : g.advance cfg io server = some g') :
    ∃ f out, (g.replicas server).frame = some f ∧
      (g.replicas server).advance cfg g.now io = some out ∧
      g' = { g.setReplica server out.replica with
        requests := g.requests ++ sent out
        replies := g.replies ++ replied server f out
        applied := g.applied ++ stored server f out } := by
  unfold advance at h
  split at h
  case h_1 f out frame advanced =>
    cases h
    exact ⟨f, out, frame, advanced, rfl⟩
  case h_2 => cases h

theorem advance_keeps {cfg : Config} {io : Io} (h : g.advance cfg io server = some g') :
    Keeps g g' := by
  obtain ⟨f, out, _, advanced, rfl⟩ := advance_cases h
  exact ⟨rfl, setReplica_keeps (Replica.advance_progress advanced).keeps⟩

theorem accept_keeps {reply : Reply} (h : g.accept reply = some g') : Keeps g g' := by
  simp only [accept, Option.ite_none_right_eq_some, Option.some.injEq] at h
  obtain ⟨_, rfl⟩ := h
  exact ⟨rfl, fun _ => .refl _⟩

theorem timeout_keeps {call : Nat} {secondary : ServerId}
    (h : g.timeout call secondary = some g') : Keeps g g' := by
  simp only [timeout, Option.ite_none_right_eq_some, Option.some.injEq] at h
  obtain ⟨_, rfl⟩ := h
  exact ⟨rfl, fun _ => .refl _⟩

theorem finish_cases (h : g.finish server = some g') :
    ∃ origin op secondaries request,
      (g.replicas server).frame = some ⟨origin, op, .forwarding secondaries request⟩ ∧
      (∀ c ∈ secondaries, g.isOpen origin.call c = false) ∧
      g' = { g.setReplica server { g.replicas server with frame := none } with
        acked := g.acked ++
          if (Replica.afterForward request
              (secondaries.all fun c => ⟨origin.call, c, true⟩ ∈ g.ended) op).code
            = .ok then [⟨origin, request⟩] else [] } := by
  unfold finish at h
  split at h
  case h_1 origin op secondaries request frame =>
    simp only [Option.ite_none_right_eq_some, Option.map_eq_some_iff] at h
    obtain ⟨all, out, answered, rfl⟩ := h
    simp only [Replica.forwarded, frame, Option.some.injEq] at answered
    subst answered
    refine ⟨origin, op, secondaries, request, frame, ?_, by simp⟩
    simpa using all
  case h_2 => cases h

theorem finish_keeps (h : g.finish server = some g') : Keeps g g' := by
  obtain ⟨_, _, _, _, _, _, rfl⟩ := finish_cases h
  exact ⟨rfl, setReplica_keeps ⟨rfl, rfl, rfl, rfl, rfl⟩⟩

end

end Group

end Gfs.Chunkserver
