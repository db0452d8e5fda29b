import Gfs.Chunkserver.DataBuffer
import Gfs.Common.Distance

/-!
# `PushData` along a chain of chunkservers

A hop passes every frame on and puts the data into its buffer when the hop behind it has answered.
What the network does to each stream is given: which writes go through, how much of the stream is
read, and whether an answer comes back.
-/

namespace Gfs.Push
open Chunkserver

structure PushHeader where
  clientId : Str
  sequence : Nat
  totalLength : Nat
  forwardTo : List Replica
deriving DecidableEq

/-- `PushDataRequest`; `empty` has neither field set. -/
inductive PushDataRequest
  | header (header : PushHeader)
  | data (data : Bytes)
  | empty
deriving DecidableEq

structure PushDataResponse where
  code : ResultCode
  failedAt : ServerId := []
deriving DecidableEq

/-- `DataBuffer::Put` on a chunkserver. -/
structure Put where
  server : ServerId
  key : BufferKey
  data : Bytes
deriving DecidableEq

/-- What happens to one stream: the first `accepted` calls of `Write` return true, the handler runs
and reads this many of the messages, and `Finish` gets its answer. -/
structure Fate where
  accepted : Nat
  runs : Bool
  read : Nat
  answered : Bool

/-- The writer stops at the first `Write` that returns false. -/
def Fate.written (fate : Fate) (messages : List PushDataRequest) : List PushDataRequest :=
  messages.take (fate.accepted + 1)

def Fate.broken (fate : Fate) (messages : List PushDataRequest) : Bool :=
  fate.accepted < messages.length

/-- The response that `Finish` has with an `OK` status, and the puts that the call caused. -/
def Fate.call (fate : Fate) (messages : List PushDataRequest)
    (handler : List PushDataRequest → PushDataResponse × List Put) :
    Option PushDataResponse × List Put :=
  if fate.runs then
    let (response, puts) := handler ((fate.written messages).take fate.read)
    (if fate.answered then some response else none, puts)
  else (none, [])

def PushDataRequest.data? : PushDataRequest → Option Bytes
  | .data bytes => some bytes
  | _ => none

/-- The end of the handler, when there is no hop behind it or that one has the data. -/
def store (self : ServerId) (header : PushHeader) (data : Bytes) : PushDataResponse × List Put :=
  if header.totalLength ≠ 0 ∧ data.length ≠ header.totalLength then (⟨.failed, self⟩, [])
  else (⟨.ok, []⟩, [⟨self, ⟨header.clientId, header.sequence⟩, data⟩])

/-- The handler on the messages that it reads; there is one fate for each hop behind it, and a hop
without one cannot be reached. -/
def pushData : List Fate → ServerId → List PushDataRequest → PushDataResponse × List Put
  | fates, self, .header header :: messages =>
      let frames := messages.filterMap PushDataRequest.data?
      match header.forwardTo, fates with
      | [], _ => store self header frames.flatten
      | next :: _, [] => (⟨.failed, next.chunkserverId⟩, [])
      | next :: rest, fate :: fates =>
          let forwarded := .header { header with forwardTo := rest } :: frames.map .data
          let (downstream, puts) := fate.call forwarded (pushData fates next.chunkserverId)
          if fate.broken forwarded then (⟨.failed, next.chunkserverId⟩, puts)
          else match downstream with
            | none => (⟨.failed, next.chunkserverId⟩, puts)
            | some ⟨.ok, _⟩ =>
                let (response, own) := store self header frames.flatten
                (response, puts ++ own)
            | some response => (response, puts)
  | _, self, _ => (⟨.failed, self⟩, [])

/-! ## The client -/

structure CachedLease where
  primary : Replica
  secondaries : List Replica

/-- The status of `Client::Impl::PushData`, with what its message names. -/
inductive PushStatus
  | ok
  | unreached (address : Str)
  | failed (server : ServerId) (code : ResultCode)
deriving DecidableEq

def CachedLease.replicas (lease : CachedLease) : List Replica := lease.primary :: lease.secondaries

/-- The loop over the frames from `pos` on. -/
def framesFrom (frame : Nat) (data : Bytes) : Nat → Nat → List Bytes
  | 0, _ => []
  | fuel + 1, pos =>
      if pos < data.length then
        (data.drop pos).take (min frame (data.length - pos)) ::
          framesFrom frame data fuel (pos + frame)
      else []

def framesOf (pushFrameSize : Nat) (data : Bytes) : List Bytes :=
  framesFrom (if pushFrameSize = 0 then 256 * 2 ^ 10 else pushFrameSize) data data.length 0

/-- The messages that the client sends to the first replica of the chain. -/
def pushMessages (pushFrameSize : Nat) (key : BufferKey) (forwardTo : List Replica)
    (data : Bytes) : List PushDataRequest :=
  .header ⟨key.clientId, key.sequence, data.length, forwardTo⟩ ::
    (framesOf pushFrameSize data).map .data

section
variable (inetPton : Str → Option (BitVec 32)) (rack : Str) (pushFrameSize : Nat)

def clientPushData (lease : CachedLease) (key : BufferKey) (data : Bytes) (fates : List Fate) :
    PushStatus × List Put :=
  match orderPushChain inetPton ⟨[], rack⟩ lease.replicas, fates with
  | [], _ => (.unreached [], [])
  | head :: _, [] => (.unreached head.address, [])
  | head :: rest, fate :: fates =>
      let (response, puts) := fate.call (pushMessages pushFrameSize key rest data)
        (pushData fates head.chunkserverId)
      match response with
      | none => (.unreached head.address, puts)
      | some ⟨.ok, _⟩ => (.ok, puts)
      | some ⟨code, failedAt⟩ =>
          (.failed (if failedAt.isEmpty then head.chunkserverId else failedAt) code, puts)

end

/-! ## What a successful push has stored -/

section
variable {data : Bytes} {frames : List Bytes} {header : PushHeader} {self : ServerId}
variable {received : List PushDataRequest} {fates : List Fate}

def PushHeader.key (header : PushHeader) : BufferKey := ⟨header.clientId, header.sequence⟩

theorem flatten_framesFrom {frame fuel pos : Nat} (positive : 0 < frame)
    (enough : data.length ≤ pos + fuel) :
    (framesFrom frame data fuel pos).flatten = data.drop pos := by
  induction fuel generalizing pos with
  | zero => exact (List.drop_eq_nil_of_le enough).symm
  | succ fuel ih =>
      unfold framesFrom
      split
      · rename_i inside
        rw [List.flatten_cons, ih (by omega), ← List.drop_drop]
        have cut : (data.drop pos).take (min frame (data.length - pos)) =
            (data.drop pos).take frame := by
          rw [List.take_eq_take_iff, List.length_drop]
          omega
        rw [cut, List.take_append_drop]
      · rename_i behind
        rw [List.drop_eq_nil_of_le (Nat.le_of_not_lt behind)]
        rfl

theorem flatten_framesOf (pushFrameSize : Nat) (data : Bytes) :
    (framesOf pushFrameSize data).flatten = data := by
  unfold framesOf
  rw [flatten_framesFrom _ (by simp), List.drop_zero]
  split
  · decide
  · omega

/-- Nothing but the data was put under the key, and an `OK` says that these have it. -/
structure Exact (servers : List ServerId) (key : BufferKey) (data : Bytes)
    (result : PushDataResponse × List Put) : Prop where
  puts : ∀ put ∈ result.2, put.key = key ∧ put.data = data
  all : result.1.code = .ok → ∀ server ∈ servers, ⟨server, key, data⟩ ∈ result.2

theorem Exact.of_failed {servers : List ServerId} {key : BufferKey} {code : ResultCode}
    {failedAt : ServerId} {puts : List Put} (failed : code ≠ .ok)
    (exact' : ∀ put ∈ puts, put.key = key ∧ put.data = data) :
    Exact servers key data (⟨code, failedAt⟩, puts) :=
  ⟨exact', fun ok => absurd ok failed⟩

theorem store_exact (total : header.totalLength = data.length) {part : Bytes}
    (front : part <+: data) : Exact [self] header.key data (store self header part) := by
  unfold store
  split
  · exact .of_failed (by decide) (by simp)
  · rename_i complete
    have whole : part = data := by
      apply front.eq_of_length
      have shorter := front.length_le
      by_cases zero : header.totalLength = 0
      · omega
      · have same : ¬part.length ≠ header.totalLength := fun different => complete ⟨zero, different⟩
        omega
    subst whole
    exact ⟨by simp [PushHeader.key], by simp [PushHeader.key]⟩

theorem filterMap_data (frames : List Bytes) :
    (frames.map PushDataRequest.data).filterMap PushDataRequest.data? = frames := by
  rw [List.filterMap_map]
  exact List.filterMap_some

/-- A call is as exact as its handler, whatever the network does. -/
theorem Exact.call {fate : Fate} {messages : List PushDataRequest} {servers : List ServerId}
    {key : BufferKey} {handler : List PushDataRequest → PushDataResponse × List Put}
    (handled : ∀ read, read <+: messages → Exact servers key data (handler read)) :
    (∀ put ∈ (fate.call messages handler).2, put.key = key ∧ put.data = data) ∧
      ∀ response, (fate.call messages handler).1 = some response → response.code = .ok →
        ∀ server ∈ servers, ⟨server, key, data⟩ ∈ (fate.call messages handler).2 := by
  unfold Fate.call
  split
  · obtain ⟨puts, all⟩ := handled ((fate.written messages).take fate.read)
      ((List.take_prefix _ _).trans (List.take_prefix _ _))
    refine ⟨puts, fun response answer ok => ?_⟩
    dsimp only at answer
    split at answer
    · obtain rfl := Option.some.inj answer
      exact all ok
    · cases answer
  · exact ⟨by simp, by simp⟩

theorem hop_exact (total : header.totalLength = data.length) (whole : frames.flatten = data)
    (part : received <+: .header header :: frames.map .data)
    (behind : ∀ next rest fates read, header.forwardTo = next :: rest →
      read <+: .header { header with forwardTo := rest } :: frames.map .data →
      Exact (next.chunkserverId :: rest.map (·.chunkserverId)) header.key data
        (pushData fates next.chunkserverId read)) :
    Exact (self :: header.forwardTo.map (·.chunkserverId)) header.key data
      (pushData fates self received) := by
  rcases List.prefix_cons_iff.mp part with rfl | ⟨messages, rfl, front⟩
  · exact ⟨by simp [pushData], by simp [pushData]⟩
  obtain ⟨count, rfl⟩ : ∃ count, messages = (frames.take count).map .data :=
    ⟨messages.length, by rw [List.map_take]; exact List.prefix_iff_eq_take.mp front⟩
  have own : (frames.take count).flatten <+: data := by
    refine ⟨(frames.drop count).flatten, ?_⟩
    rw [← List.flatten_append, List.take_append_drop, whole]
  have stored : Exact [self] header.key data (store self header (frames.take count).flatten) :=
    store_exact total own
  obtain ⟨clientId, sequence, totalLength, forwardTo⟩ := header
  unfold pushData
  dsimp only
  rw [filterMap_data]
  cases forwardTo with
  | nil => exact stored
  | cons next rest =>
      cases fates with
      | nil => exact .of_failed (by decide) (by simp)
      | cons fate fates =>
          have handled : ∀ read,
              read <+: .header ⟨clientId, sequence, totalLength, rest⟩ ::
                (frames.take count).map .data →
              Exact (next.chunkserverId :: rest.map (·.chunkserverId)) ⟨clientId, sequence⟩ data
                (pushData fates next.chunkserverId read) := by
            intro read front
            refine behind next rest fates read rfl (front.trans ?_)
            exact List.cons_prefix_cons.mpr ⟨rfl, (List.take_prefix count frames).map _⟩
          obtain ⟨puts, all⟩ := @Exact.call data fate _ _ _ _ handled
          dsimp only
          generalize fate.call _ (pushData fates next.chunkserverId) = outcome at puts all
          obtain ⟨downstream, effects⟩ := outcome
          dsimp only at puts all ⊢
          split
          · exact .of_failed (by decide) puts
          · split
            · exact .of_failed (by decide) puts
            · rename_i failedAt
              obtain ⟨ownPuts, ownAll⟩ := stored
              constructor
              · intro put member
                rcases List.mem_append.mp member with there | here
                · exact puts put there
                · exact ownPuts put here
              · intro ok server member
                rcases List.mem_cons.mp member with rfl | later
                · exact List.mem_append_right _ (ownAll ok server List.mem_cons_self)
                · exact List.mem_append_left _ (all _ rfl rfl server later)
            · rename_i response bad
              refine ⟨puts, fun ok => (bad response.failedAt ?_).elim⟩
              obtain ⟨code, failedAt⟩ := response
              exact congrArg (PushDataResponse.mk · failedAt) ok

theorem pushData_exact (total : header.totalLength = data.length) (whole : frames.flatten = data)
    (part : received <+: .header header :: frames.map .data) :
    Exact (self :: header.forwardTo.map (·.chunkserverId)) header.key data
      (pushData fates self received) := by
  obtain ⟨clientId, sequence, totalLength, forwardTo⟩ := header
  induction forwardTo generalizing fates self received with
  | nil => exact hop_exact total whole part fun next rest fates read none => by cases none
  | cons next rest ih =>
      refine hop_exact total whole part fun next' rest' fates read same front => ?_
      cases same
      exact ih total front

/-- The push chain is in order, its head answers `OK` only when every hop has put the data into its
buffer, and so does the client. -/
theorem push_reaches (inetPton : Str → Option (BitVec 32)) (rack : Str) (pushFrameSize : Nat)
    (lease : CachedLease) (key : BufferKey) (data : Bytes) (fates : List Fate) :
    (∀ origin replicas, (orderPushChain inetPton origin replicas).Perm replicas ∧
      Nearest inetPton origin (orderPushChain inetPton origin replicas)) ∧
      (∀ head rest received, received <+: pushMessages pushFrameSize key rest data →
        (pushData fates head received).1.code = .ok →
          ∀ server ∈ head :: rest.map (·.chunkserverId),
            ⟨server, key, data⟩ ∈ (pushData fates head received).2) ∧
      ((clientPushData inetPton rack pushFrameSize lease key data fates).1 = .ok →
        ∀ replica ∈ lease.replicas, ⟨replica.chunkserverId, key, data⟩ ∈
          (clientPushData inetPton rack pushFrameSize lease key data fates).2) ∧
      ∀ put ∈ (clientPushData inetPton rack pushFrameSize lease key data fates).2,
        put.key = key ∧ put.data = data := by
  have hops : ∀ fates head rest received,
      received <+: pushMessages pushFrameSize key rest data →
      Exact (head :: rest.map (·.chunkserverId)) key data (pushData fates head received) :=
    fun fates head rest received front =>
      pushData_exact rfl (flatten_framesOf pushFrameSize data) front
  refine ⟨orderPushChain_spec, fun head rest received front =>
    (hops fates head rest received front).all, ?_⟩
  obtain ⟨perm, -⟩ := @orderPushChain_spec inetPton ⟨[], rack⟩ lease.replicas
  unfold clientPushData
  generalize orderPushChain inetPton ⟨[], rack⟩ lease.replicas = chain at perm
  cases chain with
  | nil => exact ⟨by simp, by simp⟩
  | cons head rest =>
      cases fates with
      | nil => exact ⟨by simp, by simp⟩
      | cons fate fates =>
          obtain ⟨puts, all⟩ := @Exact.call data fate _ _ _ _ (hops fates head.chunkserverId rest)
          dsimp only
          generalize fate.call _ (pushData fates head.chunkserverId) = outcome at puts all
          obtain ⟨response, effects⟩ := outcome
          dsimp only at puts all ⊢
          split
          · exact ⟨by simp, puts⟩
          · refine ⟨fun _ replica member => ?_, puts⟩
            have listed := List.mem_map_of_mem (f := (·.chunkserverId)) (perm.mem_iff.mpr member)
            exact all _ rfl rfl _ listed
          · exact ⟨by simp, puts⟩

/-! ## A push that nothing disturbs -/

/-- Every message goes through and is read, and the answer comes back. -/
structure Fate.Undisturbed (fate : Fate) (count : Nat) : Prop where
  accepted : count ≤ fate.accepted
  runs : fate.runs = true
  read : count ≤ fate.read
  answered : fate.answered = true

theorem Fate.Undisturbed.call {fate : Fate} {messages : List PushDataRequest}
    (undisturbed : fate.Undisturbed messages.length)
    (handler : List PushDataRequest → PushDataResponse × List Put) :
    fate.broken messages = false ∧
      fate.call messages handler = (some (handler messages).1, (handler messages).2) := by
  have written : fate.written messages = messages :=
    List.take_of_length_le (Nat.le_succ_of_le undisturbed.accepted)
  refine ⟨decide_eq_false (Nat.not_lt.mpr undisturbed.accepted), ?_⟩
  unfold Fate.call
  rw [written, List.take_of_length_le undisturbed.read, if_pos undisturbed.runs]
  exact Prod.ext (if_pos undisturbed.answered) rfl

theorem pushData_undisturbed (total : header.totalLength = frames.flatten.length)
    (enough : header.forwardTo.length ≤ fates.length)
    (undisturbed : ∀ fate ∈ fates, fate.Undisturbed (frames.length + 1)) :
    (pushData fates self (.header header :: frames.map .data)).1 = ⟨.ok, []⟩ := by
  have stored : ∀ (self : ServerId) (header : PushHeader),
      header.totalLength = frames.flatten.length →
      (store self header frames.flatten).1 = ⟨.ok, []⟩ := by
    intro self header total
    unfold store
    rw [if_neg (fun short => short.2 total.symm)]
  obtain ⟨clientId, sequence, totalLength, forwardTo⟩ := header
  induction forwardTo generalizing fates self with
  | nil =>
      unfold pushData
      dsimp only
      rw [filterMap_data]
      exact stored _ _ total
  | cons next rest ih =>
      cases fates with
      | nil => cases enough
      | cons fate fates =>
          let forwarded : List PushDataRequest :=
            .header ⟨clientId, sequence, totalLength, rest⟩ :: frames.map .data
          have calm : fate.Undisturbed forwarded.length := by
            simpa [forwarded] using undisturbed fate List.mem_cons_self
          have behind : (pushData fates next.chunkserverId forwarded).1 = ⟨.ok, []⟩ :=
            ih (fun fate member => undisturbed fate (.tail _ member)) total
              (Nat.le_of_succ_le_succ enough)
          obtain ⟨whole, called⟩ := calm.call (pushData fates next.chunkserverId)
          unfold pushData
          dsimp only
          rw [filterMap_data, whole, called, behind]
          exact stored _ _ total

/-- A push that nothing disturbs reaches every replica. -/
theorem push_undisturbed (inetPton : Str → Option (BitVec 32)) (rack : Str) (pushFrameSize : Nat)
    (lease : CachedLease) (key : BufferKey) (data : Bytes) (fates : List Fate)
    (enough : lease.replicas.length ≤ fates.length)
    (undisturbed : ∀ fate ∈ fates,
      fate.Undisturbed ((framesOf pushFrameSize data).length + 1)) :
    (clientPushData inetPton rack pushFrameSize lease key data fates).1 = .ok := by
  obtain ⟨perm, -⟩ := @orderPushChain_spec inetPton ⟨[], rack⟩ lease.replicas
  have length := perm.length_eq
  unfold clientPushData
  generalize orderPushChain inetPton ⟨[], rack⟩ lease.replicas = chain at length
  cases chain with
  | nil => cases length
  | cons head rest =>
      cases fates with
      | nil => cases enough
      | cons fate fates =>
          have calm : fate.Undisturbed (pushMessages pushFrameSize key rest data).length := by
            simpa [pushMessages] using undisturbed fate List.mem_cons_self
          obtain ⟨-, called⟩ := calm.call (pushData fates head.chunkserverId)
          have answered : (pushData fates head.chunkserverId
              (pushMessages pushFrameSize key rest data)).1 = ⟨.ok, []⟩ := by
            refine pushData_undisturbed ?_ ?_ fun fate member => undisturbed fate (.tail _ member)
            · rw [flatten_framesOf]
            · exact Nat.le_of_succ_le_succ (length.le.trans enough)
          dsimp only
          rw [called, answered]

/-- Two replicas, and nothing disturbs the push. -/
example : clientPushData (fun _ => none) [] 2 ⟨⟨['p'], [], []⟩, [⟨['s'], [], []⟩]⟩ ⟨['c'], 1⟩
    [1, 2, 3] [⟨3, true, 3, true⟩, ⟨3, true, 3, true⟩] =
      (.ok, [⟨['s'], ⟨['c'], 1⟩, [1, 2, 3]⟩, ⟨['p'], ⟨['c'], 1⟩, [1, 2, 3]⟩]) := by
  decide

/-- The secondary cannot be reached. -/
example : (clientPushData (fun _ => none) [] 2 ⟨⟨['p'], [], []⟩, [⟨['s'], [], []⟩]⟩ ⟨['c'], 1⟩
    [1, 2, 3] [⟨9, true, 9, true⟩]).1 = .failed ['s'] .failed := by
  decide

end

end Gfs.Push
