import Gfs.Chunkserver.Group

/-!
# Which copies have an acknowledged mutation

A mutation is settled on a chunkserver when its copy has taken the mutation or has a version below
the one that the mutation was issued under. The primary answers a client when this holds of itself,
of the secondaries that it knows, because they said so, and of everybody else, because they had a
lower version when the mutation was admitted. The traffic under the number of the client's call is
what ties the answers of the secondaries to the mutation.
-/

namespace Gfs.Chunkserver.Settle

def Settled (g : Group) (m : Mutation) (server : ServerId) : Prop :=
  ∀ entry, (g.replicas server).entry = some entry → m.request.version ≤ entry.version → m ∈ entry.log

/-- The chunkserver has no copy of this version or a later one. -/
def Behind (g : Group) (version : Nat) (server : ServerId) : Prop :=
  ∀ entry, (g.replicas server).entry = some entry → entry.version < version

/-! ## Traffic -/

/-- The mutation is on its way to a secondary, or a secondary is at work on it. -/
def InFlight (g : Group) (m : Mutation) : Prop :=
  (∃ q ∈ g.requests, q.origin = m.origin ∧ q.request = m.request) ∨
    ∃ server stage, (g.replicas server).frame = some ⟨m.origin, .apply m.request, stage⟩

def Succeeded (g : Group) (r : Reply) : Prop := r.ok = true ∧ (r ∈ g.replies ∨ r ∈ g.ended)

structure Silent (g : Group) (call : Nat) : Prop where
  flight : ∀ m, InFlight g m → m.origin.call ≠ call
  reply : ∀ r, Succeeded g r → r.call ≠ call

/-- All traffic under the call of the mutation is about the mutation. -/
structure Agrees (g : Group) (m : Mutation) : Prop where
  flight : ∀ m', InFlight g m' → m'.origin.call = m.origin.call → m' = m
  reply : ∀ r, Succeeded g r → r.call = m.origin.call → Settled g m r.secondary

/-! ## The invariant -/

def request? : Stage → Option ApplyMutationRequest
  | .numbered _ request _ | .forwarding _ request => some request
  | _ => none

def isLeased : Stage → Bool
  | .locked | .versioned => false
  | _ => true

def isForwarding : Stage → Bool
  | .forwarding _ _ => true
  | _ => false

structure Sound (g : Group) (server : ServerId) (f : Frame) : Prop where
  call : f.origin.call < g.calls
  request : ∀ request, request? f.stage = some request → request.version = f.op.version
  outside : isLeased f.stage = true → ∀ other, other ≠ server → other ∉ f.stage.secondaries →
    Behind g f.op.version other
  early : isForwarding f.stage = false → Silent g f.origin.call
  late : ∀ secondaries request, f.stage = .forwarding secondaries request →
    Settled g ⟨f.origin, request⟩ server ∧ Agrees g ⟨f.origin, request⟩

structure Settling (g : Group) : Prop where
  client : ∀ server f, (g.replicas server).frame = some f → f.op.isClient = true → Sound g server f
  secondary : ∀ server f, (g.replicas server).frame = some f → f.op.isClient = false →
    f.stage.isNumbered = false
  distinct : ∀ server server' f f', (g.replicas server).frame = some f →
    (g.replicas server').frame = some f' → f.op.isClient = true → f'.op.isClient = true →
    f.origin.call = f'.origin.call → server = server'
  silent : ∀ call, g.calls ≤ call → Silent g call
  acked : ∀ m ∈ g.acked, ∀ server, Settled g m server

/-! ## Steps that lose nothing -/

def Grows (g g' : Group) : Prop :=
  ∀ server entry', (g'.replicas server).entry = some entry' → ∃ entry,
    (g.replicas server).entry = some entry ∧ entry'.version = entry.version ∧
      ∀ m ∈ entry.log, m ∈ entry'.log

section
variable {g g' : Group} {server : ServerId} {r : Replica}

theorem Settled.grows {m : Mutation} (settled : Settled g m server) (grows : Grows g g') :
    Settled g' m server := by
  intro entry' found high
  obtain ⟨entry, old, version, kept⟩ := grows server entry' found
  exact kept m (settled entry old (version ▸ high))

theorem Behind.grows {version : Nat} (behind : Behind g version server) (grows : Grows g g') :
    Behind g' version server := by
  intro entry' found
  obtain ⟨entry, old, same, _⟩ := grows server entry' found
  exact same ▸ behind entry old

theorem grows_of_entry (same : ∀ server, (g'.replicas server).entry = (g.replicas server).entry) :
    Grows g g' :=
  fun server entry' found => ⟨entry', same server ▸ found, rfl, fun _ => id⟩

theorem grows_setReplica (replicas : g'.replicas = (g.setReplica server r).replicas)
    (own : ∀ entry', r.entry = some entry' → ∃ entry,
      (g.replicas server).entry = some entry ∧ entry'.version = entry.version ∧
        ∀ m ∈ entry.log, m ∈ entry'.log) : Grows g g' := by
  intro other entry' found
  rw [replicas] at found
  by_cases eq : other = server
  · subst eq
    rw [Group.setReplica_self] at found
    exact own entry' found
  · rw [Group.setReplica_of_ne eq] at found
    exact ⟨entry', found, rfl, fun _ => id⟩

/-- The traffic of the new state is that of the old one, and answers for what was in flight. -/
structure Quiet (g g' : Group) (call : Nat) : Prop where
  flight : ∀ m, InFlight g' m → m.origin.call = call → InFlight g m
  reply : ∀ r, Succeeded g' r → r.call = call → Succeeded g r ∨
    ∃ m, InFlight g m ∧ m.origin.call = call ∧ Settled g' m r.secondary

theorem Silent.quiet {call : Nat} (silent : Silent g call) (quiet : Quiet g g' call) :
    Silent g' call := by
  constructor
  · intro m flies same
    exact silent.flight m (quiet.flight m flies same) same
  · intro r succeeded same
    rcases quiet.reply r succeeded same with old | ⟨m, flew, about, _⟩
    · exact silent.reply r old same
    · exact silent.flight m flew about

theorem Agrees.quiet {m : Mutation} (agrees : Agrees g m) (quiet : Quiet g g' m.origin.call)
    (grows : Grows g g') : Agrees g' m := by
  constructor
  · intro m' flies same
    exact agrees.flight m' (quiet.flight m' flies same) same
  · intro r succeeded same
    rcases quiet.reply r succeeded same with old | ⟨m', flew, about, settled⟩
    · exact (agrees.reply r old same).grows grows
    · obtain rfl := agrees.flight m' flew about
      exact settled

theorem Sound.quiet {f : Frame} (sound : Sound g server f) (quiet : Quiet g g' f.origin.call)
    (grows : Grows g g') (calls : g.calls ≤ g'.calls) : Sound g' server f where
  call := sound.call.trans_le calls
  request := sound.request
  outside leased other ne unlisted := (sound.outside leased other ne unlisted).grows grows
  early notYet := (sound.early notYet).quiet quiet
  late secondaries request stage := by
    obtain ⟨settled, agrees⟩ := sound.late secondaries request stage
    exact ⟨settled.grows grows, agrees.quiet quiet grows⟩

theorem Settling.update (inv : Settling g) (server : ServerId) (grows : Grows g g')
    (calls : g.calls ≤ g'.calls)
    (others : ∀ other, other ≠ server → (g'.replicas other).frame = (g.replicas other).frame)
    (quiet : ∀ call, (∀ f, (g.replicas server).frame = some f → f.op.isClient = true →
      f.origin.call ≠ call) → Quiet g g' call)
    (client : ∀ f, (g'.replicas server).frame = some f → f.op.isClient = true → Sound g' server f)
    (secondary : ∀ f, (g'.replicas server).frame = some f → f.op.isClient = false →
      f.stage.isNumbered = false)
    (call : ∀ f, (g'.replicas server).frame = some f → f.op.isClient = true →
      g.calls ≤ f.origin.call ∨ ∃ old, (g.replicas server).frame = some old ∧
        old.op.isClient = true ∧ old.origin.call = f.origin.call)
    (acked : ∀ m ∈ g'.acked, m ∈ g.acked ∨ ∀ server, Settled g' m server) : Settling g' := by
  have apart : ∀ other f, other ≠ server → (g.replicas other).frame = some f →
      f.op.isClient = true → ∀ f', (g'.replicas server).frame = some f' → f'.op.isClient = true →
        f.origin.call ≠ f'.origin.call := by
    intro other f ne found isClient f' found' isClient' same
    rcases call f' found' isClient' with fresh | ⟨old, foundOld, clientOld, sameOld⟩
    · exact absurd (inv.client other f found isClient).call (not_lt.mpr (same ▸ fresh))
    · exact ne (inv.distinct other server f old found foundOld isClient clientOld (same.trans sameOld.symm))
  constructor
  · intro other f found isClient
    by_cases eq : other = server
    · subst eq
      exact client f found isClient
    · rw [others other eq] at found
      refine (inv.client other f found isClient).quiet (quiet _ ?_) grows calls
      exact fun f' found' isClient' same =>
        eq (inv.distinct other server f f' found found' isClient isClient' same.symm)
  · intro other f found notClient
    by_cases eq : other = server
    · subst eq
      exact secondary f found notClient
    · rw [others other eq] at found
      exact inv.secondary other f found notClient
  · intro first second f f' found found' isClient isClient' same
    by_cases eq : first = server
    · by_cases eq' : second = server
      · rw [eq, eq']
      · subst eq
        rw [others second eq'] at found'
        exact absurd same.symm (apart second f' eq' found' isClient' f found isClient)
    · rw [others first eq] at found
      by_cases eq' : second = server
      · subst eq'
        exact absurd same (apart first f eq found isClient f' found' isClient')
      · rw [others second eq'] at found'
        exact inv.distinct first second f f' found found' isClient isClient' same
  · intro k large
    refine (inv.silent k (calls.trans large)).quiet (quiet k fun f found isClient same => ?_)
    exact absurd (inv.client server f found isClient).call (by omega)
  · intro m member other
    rcases acked m member with old | new
    · exact (inv.acked m old other).grows grows
    · exact new other

theorem quiet_of {call : Nat} (requests : ∀ q ∈ g'.requests, q ∈ g.requests)
    (handlers : ∀ server m stage, (g'.replicas server).frame = some ⟨m.origin, .apply m.request, stage⟩ →
      InFlight g m)
    (replies : ∀ r, Succeeded g' r → Succeeded g r) : Quiet g g' call := by
  constructor
  · rintro m (⟨q, member, same⟩ | ⟨server, stage, found⟩) _
    · exact .inl ⟨q, requests q member, same⟩
    · exact handlers server m stage found
  · exact fun r succeeded _ => .inl (replies r succeeded)

theorem handlers_setReplica {m : Mutation} {stage : Stage} {other : ServerId}
    (replicas : g'.replicas = (g.setReplica server r).replicas)
    (own : ∀ m stage, r.frame = some ⟨m.origin, .apply m.request, stage⟩ → InFlight g m)
    (found : (g'.replicas other).frame = some ⟨m.origin, .apply m.request, stage⟩) : InFlight g m := by
  rw [replicas] at found
  by_cases eq : other = server
  · subst eq
    rw [Group.setReplica_self] at found
    exact own m stage found
  · rw [Group.setReplica_of_ne eq] at found
    exact .inr ⟨other, stage, found⟩

theorem Settling.leave (inv : Settling g) (server : ServerId) (grows : Grows g g')
    (calls : g.calls ≤ g'.calls)
    (others : ∀ other, other ≠ server → (g'.replicas other).frame = (g.replicas other).frame)
    (frame : ∀ f, (g'.replicas server).frame = some f → (g.replicas server).frame = some f)
    (quiet : ∀ call, Quiet g g' call)
    (acked : ∀ m ∈ g'.acked, m ∈ g.acked ∨ ∀ server, Settled g' m server) : Settling g' := by
  refine inv.update server grows calls others (fun call _ => quiet call) ?_ ?_ ?_ acked
  · intro f found isClient
    exact (inv.client server f (frame f found) isClient).quiet (quiet _) grows calls
  · exact fun f found => inv.secondary server f (frame f found)
  · exact fun f found isClient => .inr ⟨f, frame f found, isClient, rfl⟩

theorem frame_of_ne (replicas : g'.replicas = (g.setReplica server r).replicas) :
    ∀ other, other ≠ server → (g'.replicas other).frame = (g.replicas other).frame := by
  intro other ne
  rw [replicas, Group.setReplica_of_ne ne]

theorem Settling.idle (inv : Settling g)
    (frames : ∀ server, (g'.replicas server).frame = (g.replicas server).frame)
    (grows : Grows g g') (calls : g.calls ≤ g'.calls)
    (requests : ∀ q ∈ g'.requests, q ∈ g.requests) (replies : ∀ r, Succeeded g' r → Succeeded g r)
    (acked : g'.acked = g.acked) : Settling g' := by
  refine inv.leave [] grows calls (fun other _ => frames other) (fun f found => frames [] ▸ found)
    (fun call => quiet_of requests ?_ replies) fun m member => .inl (acked ▸ member)
  exact fun server m stage found => .inr ⟨server, stage, frames server ▸ found⟩

theorem push_same {β : Type} (f : Replica → β) (key : BufferKey) (data : Bytes)
    (same : ∀ r buffer, f { r with buffer } = f r) (other : ServerId) :
    f ((g.push server key data).replicas other) = f (g.replicas other) := by
  unfold Group.push
  by_cases eq : other = server
  · subst eq
    rw [Group.setReplica_self]
    exact same _ _
  · rw [Group.setReplica_of_ne eq]

theorem Settling.push (inv : Settling g) (key : BufferKey) (data : Bytes) :
    Settling (g.push server key data) :=
  inv.idle (push_same Replica.frame key data fun _ _ => rfl)
    (grows_of_entry (push_same Replica.entry key data fun _ _ => rfl)) le_rfl (fun _ => id)
    (fun _ => id) rfl

theorem Settling.startClient {op : MutationOp} (inv : Settling g)
    (h : g.startClient server op = some g') : Settling g' := by
  simp only [Group.startClient, Option.ite_none_right_eq_some, Option.map_eq_some_iff] at h
  obtain ⟨isClient, out, started, rfl⟩ := h
  rcases Replica.start_cases started with ⟨_, rfl⟩ | ⟨_, rfl⟩
  · refine inv.idle ?_ (grows_of_entry ?_) (Nat.le_succ _) (fun _ => id) (fun _ => id) rfl
    · exact fun other => by simp [Group.setReplica]
    · exact fun other => by simp [Group.setReplica]
  · have grows : Grows g { g.setReplica server { g.replicas server with
        frame := some ⟨⟨server, g.calls⟩, op, .locked⟩ } with calls := g.calls + 1 } :=
      grows_setReplica rfl fun entry' found => ⟨entry', found, rfl, fun _ => id⟩
    have quiet : ∀ call, Quiet g { g.setReplica server { g.replicas server with
        frame := some ⟨⟨server, g.calls⟩, op, .locked⟩ } with calls := g.calls + 1 } call := by
      refine fun call => quiet_of (fun _ => id) (fun other m stage found => ?_) fun _ => id
      refine handlers_setReplica rfl (fun m stage own => ?_) found
      have same := Option.some.inj own
      simp only [Frame.mk.injEq] at same
      rw [same.2.1] at isClient
      cases isClient
    refine inv.update server grows (Nat.le_succ _) (frame_of_ne rfl) (fun call _ => quiet call)
      ?_ ?_ ?_ fun m => .inl
    · intro f found _
      have same : f = ⟨⟨server, g.calls⟩, op, .locked⟩ := by
        simpa [Replica.goto] using found.symm
      subst same
      exact ⟨Nat.lt_succ_self _, (fun _ is => by cases is), (fun is => by cases is),
        fun _ => (inv.silent g.calls le_rfl).quiet (quiet _), fun _ _ is => by cases is⟩
    · intro f found notClient
      have same : f = ⟨⟨server, g.calls⟩, op, .locked⟩ := by
        simpa [Replica.goto] using found.symm
      subst same
      rfl
    · intro f found _
      have same : f = ⟨⟨server, g.calls⟩, op, .locked⟩ := by
        simpa [Replica.goto] using found.symm
      subst same
      exact .inl le_rfl

theorem Settling.deliver {q : Forward} (inv : Settling g) (h : g.deliver q = some g') :
    Settling g' := by
  simp only [Group.deliver, Option.ite_none_right_eq_some, Option.map_eq_some_iff] at h
  obtain ⟨pending, out, started, rfl⟩ := h
  rcases Replica.start_cases started with ⟨_, rfl⟩ | ⟨_, rfl⟩
  · refine inv.idle ?_ (grows_of_entry ?_) le_rfl (fun _ => List.mem_of_mem_erase) ?_ rfl
    · exact fun other => by simp [Group.setReplica]
    · exact fun other => by simp [Group.setReplica]
    · rintro r ⟨ok, replied | ended⟩
      · rcases List.mem_append.mp replied with old | new
        · exact ⟨ok, .inl old⟩
        · cases List.mem_singleton.mp new
          cases ok
      · exact ⟨ok, .inr ended⟩
  · refine inv.update q.target ?_ le_rfl (frame_of_ne rfl) ?_ ?_ ?_ ?_ fun m => .inl
    · exact grows_setReplica rfl fun entry' found => ⟨entry', found, rfl, fun _ => id⟩
    · refine fun call _ => quiet_of (fun _ => List.mem_of_mem_erase) (fun other m stage found => ?_) ?_
      · refine handlers_setReplica rfl (fun m stage own => ?_) found
        have same := Option.some.inj own
        simp only [Frame.mk.injEq, MutationOp.apply.injEq] at same
        exact .inl ⟨q, pending, same.1, same.2.1⟩
      · rintro r ⟨ok, replied | ended⟩
        · exact ⟨ok, .inl (by simpa [Replica.goto] using replied)⟩
        · exact ⟨ok, .inr ended⟩
    · intro f found isClient
      have same : f = ⟨q.origin, .apply q.request, .locked⟩ := by
        simpa [Replica.goto] using found.symm
      subst same
      cases isClient
    · intro f found _
      have same : f = ⟨q.origin, .apply q.request, .locked⟩ := by
        simpa [Replica.goto] using found.symm
      subst same
      rfl
    · intro f found isClient
      have same : f = ⟨q.origin, .apply q.request, .locked⟩ := by
        simpa [Replica.goto] using found.symm
      subst same
      cases isClient

theorem Settling.accept {reply : Reply} (inv : Settling g) (h : g.accept reply = some g') :
    Settling g' := by
  simp only [Group.accept, Option.ite_none_right_eq_some, Option.some.injEq] at h
  obtain ⟨⟨replied, _⟩, rfl⟩ := h
  refine inv.idle (fun _ => rfl) (grows_of_entry fun _ => rfl) le_rfl (fun _ => id) ?_ rfl
  rintro r ⟨ok, old | ended⟩
  · exact ⟨ok, .inl old⟩
  · rcases List.mem_append.mp ended with old | new
    · exact ⟨ok, .inr old⟩
    · exact ⟨ok, .inl (List.mem_singleton.mp new ▸ replied)⟩

theorem Settling.timeout {call : Nat} {secondary : ServerId} (inv : Settling g)
    (h : g.timeout call secondary = some g') : Settling g' := by
  simp only [Group.timeout, Option.ite_none_right_eq_some, Option.some.injEq] at h
  obtain ⟨_, rfl⟩ := h
  refine inv.idle (fun _ => rfl) (grows_of_entry fun _ => rfl) le_rfl (fun _ => id) ?_ rfl
  rintro r ⟨ok, old | ended⟩
  · exact ⟨ok, .inl old⟩
  · rcases List.mem_append.mp ended with old | new
    · exact ⟨ok, .inr old⟩
    · cases List.mem_singleton.mp new
      cases ok

/-! ## The handler moves on -/

/-- A lease check that succeeds knows every chunkserver that has the version. -/
def Admits (g : Group) (server : ServerId) : Prop :=
  ∀ f, (g.replicas server).frame = some f → f.op.isClient = true → f.stage = .versioned →
    ∀ secondaries, LeaseTable.check g.now (g.replicas server).slot = .primary secondaries →
      ∀ other, other ≠ server → other ∉ secondaries → Behind g f.op.version other

theorem Sound.follows {origin : Origin} {op : MutationOp} {stage stage' : Stage}
    {slot : Option Slot} (sound : Sound g server ⟨origin, op, stage⟩) (isClient : op.isClient = true)
    (admits : Admits g server) (frame : (g.replicas server).frame = some ⟨origin, op, stage⟩)
    (follows : Replica.Follows g.now (g.replicas server) op stage stage' slot) :
    Sound g server ⟨origin, op, stage'⟩ := by
  have unsent : isForwarding stage = false → Silent g origin.call := sound.early
  have outside := sound.outside
  cases follows with
  | version => exact ⟨sound.call, nofun, nofun, fun _ => unsent rfl, nofun⟩
  | lease _ checked =>
      exact ⟨sound.call, nofun, fun _ => admits _ frame isClient rfl _ checked,
        fun _ => unsent rfl, nofun⟩
  | receive notClient => simp [isClient] at notClient
  | size => exact ⟨sound.call, nofun, fun _ => outside rfl, fun _ => unsent rfl, nofun⟩
  | take _ past =>
      rcases past with rfl | rfl <;>
        exact ⟨sound.call, nofun, fun _ => outside rfl, fun _ => unsent rfl, nofun⟩
  | length => exact ⟨sound.call, nofun, fun _ => outside rfl, fun _ => unsent rfl, nofun⟩
  | number _ past version =>
      rcases past with rfl | ⟨_, rfl⟩ <;>
        exact ⟨sound.call, fun _ same => Option.some.inj same ▸ version, fun _ => outside rfl,
          fun _ => unsent rfl, nofun⟩

theorem follows_unnumbered {op : MutationOp} {stage stage' : Stage} {now : TimePoint}
    {slot : Option Slot} (notClient : op.isClient = false)
    (follows : Replica.Follows now r op stage stage' slot) : stage'.isNumbered = false := by
  cases follows with
  | number isClient => simp [notClient] at isClient
  | _ => rfl

theorem Settling.isClient {f : Frame} (inv : Settling g)
    (frame : (g.replicas server).frame = some f) (numbered : f.stage.isNumbered = true) :
    f.op.isClient = true := by
  by_contra notClient
  have unnumbered := inv.secondary server f frame (by simpa using notClient)
  simp [numbered] at unnumbered

theorem Settling.forward {origin : Origin} {op : MutationOp} {secondaries : List ServerId}
    {request : ApplyMutationRequest} {data : Bytes} {entry entry' : ChunkEntry} (inv : Settling g)
    (frame : (g.replicas server).frame = some ⟨origin, op, .numbered secondaries request data⟩)
    (stored : (g.replicas server).entry = some entry) (version : entry'.version = entry.version)
    (log : entry'.log = entry.log ++ [⟨origin, request⟩])
    (replicas : g'.replicas = (g.setReplica server { g.replicas server with
      entry := some entry', frame := some ⟨origin, op, .forwarding secondaries request⟩ }).replicas)
    (calls : g'.calls = g.calls)
    (requests : g'.requests = g.requests ++ secondaries.map (⟨·, origin, request⟩))
    (replies : g'.replies = g.replies) (ended : g'.ended = g.ended) (acked : g'.acked = g.acked) :
    Settling g' := by
  have isClient : op.isClient = true := inv.isClient frame rfl
  have sound := inv.client server _ frame isClient
  have grows : Grows g g' := by
    refine grows_setReplica replicas fun _ found => ⟨entry, stored, ?_⟩
    obtain rfl := Option.some.inj found
    exact ⟨version, fun m member => log ▸ List.mem_append_left _ member⟩
  have self : (g'.replicas server).frame = some ⟨origin, op, .forwarding secondaries request⟩ := by
    rw [replicas, Group.setReplica_self]
  have flight : ∀ m, InFlight g' m → InFlight g m ∨ m = ⟨origin, request⟩ := by
    rintro m (⟨q, member, sameOrigin, sameRequest⟩ | ⟨other, stage, found⟩)
    · rw [requests] at member
      rcases List.mem_append.mp member with old | new
      · exact .inl (.inl ⟨q, old, sameOrigin, sameRequest⟩)
      · obtain ⟨_, _, rfl⟩ := List.mem_map.mp new
        obtain ⟨_, _⟩ := m
        cases sameOrigin
        cases sameRequest
        exact .inr rfl
    · refine .inl (handlers_setReplica replicas (fun m stage own => ?_) found)
      have same := Option.some.inj own
      simp only [Frame.mk.injEq] at same
      rw [same.2.1] at isClient
      cases isClient
  have succeeded : ∀ r, Succeeded g' r → Succeeded g r := by
    rintro r ⟨ok, member⟩
    exact ⟨ok, replies ▸ ended ▸ member⟩
  refine inv.update server grows calls.ge (frame_of_ne replicas) ?_ ?_ ?_ ?_
    fun m member => .inl (acked ▸ member)
  · intro call apart
    constructor
    · intro m flies same
      rcases flight m flies with old | rfl
      · exact old
      · exact absurd same (apart _ frame isClient)
    · exact fun r ok _ => .inl (succeeded r ok)
  · intro f found _
    obtain rfl := Option.some.inj (self.symm.trans found)
    refine ⟨calls ▸ sound.call, fun _ same => sound.request _ same, ?_, nofun, ?_⟩
    · exact fun _ other ne unlisted => (sound.outside rfl other ne unlisted).grows grows
    · intro _ _ same
      cases same
      constructor
      · intro _ found _
        rw [replicas, Group.setReplica_self] at found
        obtain rfl := Option.some.inj found
        rw [log]
        exact List.mem_append_right _ (List.mem_singleton.mpr rfl)
      · constructor
        · intro m flies same
          rcases flight m flies with old | rfl
          · exact absurd same ((sound.early rfl).flight m old)
          · rfl
        · exact fun r ok same => absurd same ((sound.early rfl).reply r (succeeded r ok))
  · intro f found notClient
    obtain rfl := Option.some.inj (self.symm.trans found)
    simp [isClient] at notClient
  · intro f found _
    obtain rfl := Option.some.inj (self.symm.trans found)
    exact .inr ⟨_, frame, isClient, rfl⟩

theorem replied_client {f : Frame} {out : Outcome} (isClient : f.op.isClient = true) :
    Group.replied server f out = [] := by
  cases op : f.op <;> simp_all [Group.replied, MutationOp.isClient]

theorem Settling.unlock {entry : Option ChunkEntry} (inv : Settling g)
    (replicas : g'.replicas =
      (g.setReplica server { g.replicas server with entry, frame := none }).replicas)
    (kept : ∀ entry', entry = some entry' → ∃ old, (g.replicas server).entry = some old ∧
      entry'.version = old.version ∧ ∀ m ∈ old.log, m ∈ entry'.log)
    (calls : g'.calls = g.calls) (requests : g'.requests = g.requests)
    (replies : ∀ r, Succeeded g' r → Succeeded g r ∨
      ∃ m, InFlight g m ∧ r.call = m.origin.call ∧ Settled g' m r.secondary)
    (acked : ∀ m ∈ g'.acked, m ∈ g.acked ∨ ∀ server, Settled g' m server) : Settling g' := by
  have free : (g'.replicas server).frame = none := by rw [replicas, Group.setReplica_self]
  refine inv.leave server (grows_setReplica replicas kept) calls.ge (frame_of_ne replicas)
    (fun f found => by simp [free] at found) (fun call => ?_) acked
  constructor
  · rintro m (⟨q, member, same⟩ | ⟨other, stage, found⟩) _
    · exact .inl ⟨q, requests ▸ member, same⟩
    · exact handlers_setReplica replicas nofun found
  · intro r ok same
    rcases replies r ok with old | ⟨m, flew, about, settled⟩
    · exact .inl old
    · exact .inr ⟨m, flew, about.symm.trans same, settled⟩

theorem Settling.move {origin : Origin} {op : MutationOp} {stage stage' : Stage}
    {slot : Option Slot} {buffer : DataBuffer} (inv : Settling g) (admits : Admits g server)
    (frame : (g.replicas server).frame = some ⟨origin, op, stage⟩)
    (follows : Replica.Follows g.now (g.replicas server) op stage stage' slot)
    (replicas : g'.replicas = (g.setReplica server { g.replicas server with
      buffer, slot, frame := some ⟨origin, op, stage'⟩ }).replicas)
    (calls : g'.calls = g.calls) (requests : g'.requests = g.requests)
    (replies : g'.replies = g.replies) (ended : g'.ended = g.ended) (acked : g'.acked = g.acked) :
    Settling g' := by
  have grows : Grows g g' := grows_setReplica replicas fun entry found => ⟨entry, found, rfl, fun _ => id⟩
  have quiet : ∀ call, Quiet g g' call := by
    refine fun call => quiet_of (fun _ => requests ▸ id) (fun other m stage'' found => ?_) ?_
    · refine handlers_setReplica replicas (fun m stage'' own => ?_) found
      have same := Option.some.inj own
      simp only [Frame.mk.injEq] at same
      obtain ⟨rfl, rfl, _⟩ := same
      exact .inr ⟨server, stage, frame⟩
    · rintro r ⟨ok, member⟩
      exact ⟨ok, replies ▸ ended ▸ member⟩
  have self : ∀ f, (g'.replicas server).frame = some f → f = ⟨origin, op, stage'⟩ := by
    intro f found
    rw [replicas, Group.setReplica_self] at found
    exact (Option.some.inj found).symm
  refine inv.update server grows calls.ge (frame_of_ne replicas) (fun call _ => quiet call) ?_ ?_ ?_
    fun m member => .inl (acked ▸ member)
  · intro f found isClient
    obtain rfl := self f found
    exact ((inv.client server _ frame isClient).follows isClient admits frame follows).quiet
      (quiet _) grows calls.ge
  · intro f found notClient
    obtain rfl := self f found
    exact follows_unnumbered notClient follows
  · intro f found isClient
    obtain rfl := self f found
    exact .inr ⟨_, frame, isClient, rfl⟩

theorem Settling.advance {cfg : Config} {io : Io} (inv : Settling g) (admits : Admits g server)
    (h : g.advance cfg io server = some g') : Settling g' := by
  obtain ⟨f, out, frame, advanced, rfl⟩ := Group.advance_cases h
  cases Replica.advance_progress advanced with
  | answer _ failed =>
      refine inv.unlock rfl (fun entry found => ⟨entry, found, rfl, fun _ => id⟩) rfl
        (by simp [Group.sent]) ?_ fun m => .inl
      rintro r ⟨ok, replied | ended⟩
      · rcases List.mem_append.mp replied with old | new
        · exact .inl ⟨ok, .inl old⟩
        · cases op : f.op with
          | apply request =>
              simp only [Group.replied, op, List.mem_singleton] at new
              subst new
              exact absurd (of_decide_eq_true ok) failed
          | _ => simp [Group.replied, op] at new
      · exact .inl ⟨ok, .inr ended⟩
  | @move origin op stage stage' slot buffer frame' follows =>
      obtain rfl := Option.some.inj (frame.symm.trans frame')
      refine inv.move admits frame follows rfl rfl ?_ ?_ rfl rfl
      · cases follows <;> simp [Group.sent]
      · cases op <;> simp [Group.replied]
  | storeLocal frame' stored applied =>
      obtain rfl := Option.some.inj (frame.symm.trans frame')
      have isClient := inv.isClient frame rfl
      refine inv.forward frame stored (ChunkStore.applied_version applied)
        (ChunkStore.applied_log applied) rfl rfl (by simp [Group.sent]) ?_ rfl rfl
      simp [replied_client isClient]
  | storeFailed frame' stored applied failed =>
      obtain rfl := Option.some.inj (frame.symm.trans frame')
      have isClient := inv.isClient frame rfl
      refine inv.unlock rfl (fun entry' found => ⟨_, stored, ?_⟩) rfl
        (by simp [Group.sent]) ?_ fun m => .inl
      · obtain rfl := Option.some.inj found
        have log := ChunkStore.applied_log applied
        rw [if_neg failed] at log
        exact ⟨ChunkStore.applied_version applied, fun m member => log ▸ member⟩
      · rintro r ⟨ok, replied | ended⟩
        · exact .inl ⟨ok, .inl (by simpa [replied_client isClient] using replied)⟩
        · exact .inl ⟨ok, .inr ended⟩
  | @storeForwarded origin stage request data entry entry' code frame' ready stored applied =>
      obtain rfl := Option.some.inj (frame.symm.trans frame')
      have log := ChunkStore.applied_log applied
      refine inv.unlock rfl (fun _ found => ⟨_, stored, ?_⟩) rfl
        (by simp [Group.sent]) ?_ fun m => .inl
      · obtain rfl := Option.some.inj found
        refine ⟨ChunkStore.applied_version applied, fun m member => ?_⟩
        rw [log]
        split
        · exact List.mem_append_left _ member
        · exact member
      · rintro r ⟨ok, replied | ended⟩
        · rcases List.mem_append.mp replied with old | new
          · exact .inl ⟨ok, .inl old⟩
          · obtain rfl := List.mem_singleton.mp new
            rw [if_pos (of_decide_eq_true ok)] at log
            refine .inr ⟨⟨origin, request⟩, .inr ⟨server, stage, frame⟩, rfl, ?_⟩
            intro last found _
            have same : some entry' = some last := by simpa using found
            obtain rfl := Option.some.inj same
            rw [log]
            exact List.mem_append_right _ (List.mem_singleton.mpr rfl)
        · exact .inl ⟨ok, .inr ended⟩

/-- The primary answers: with OK only if all its secondaries have the mutation. -/
theorem Settling.finish (inv : Settling g) (h : g.finish server = some g') : Settling g' := by
  obtain ⟨origin, op, secondaries, request, frame, _, rfl⟩ := Group.finish_cases h
  have isClient : op.isClient = true := inv.isClient frame rfl
  have sound := inv.client server _ frame isClient
  obtain ⟨own, agrees⟩ := sound.late secondaries request rfl
  have grows : ∀ acked, Grows g { g.setReplica server { g.replicas server with frame := none } with
      acked } := fun acked =>
    grows_setReplica rfl fun entry found => ⟨entry, found, rfl, fun _ => id⟩
  refine inv.unlock rfl (fun entry found => ⟨entry, found, rfl, fun _ => id⟩) rfl rfl
    (fun r => .inl) fun m member => ?_
  rcases List.mem_append.mp member with old | new
  · exact .inl old
  · split at new
    case isFalse => cases new
    case isTrue ok =>
      obtain rfl := List.mem_singleton.mp new
      refine .inr fun other => Settled.grows ?_ (grows _)
      have reached := Replica.afterForward_ok ok
      by_cases eq : other = server
      · exact eq ▸ own
      · by_cases listed : other ∈ secondaries
        · have answered := List.all_eq_true.mp reached other listed
          exact agrees.reply ⟨origin.call, other, true⟩ ⟨rfl, .inr (of_decide_eq_true answered)⟩ rfl
        · intro entry found high
          have behind := sound.outside rfl other eq listed entry found
          have version := sound.request request rfl
          dsimp only at high behind version
          omega

/-! ## Versions and copies change -/

/-- The version of an acknowledged mutation or of one that is being handled. -/
def InUse (g : Group) (version : Nat) : Prop :=
  (∃ m ∈ g.acked, m.request.version = version) ∨
    ∃ server f, (g.replicas server).frame = some f ∧ f.op.isClient = true ∧ f.op.version = version

/-- A copy gets another version only if it has all versions in use, and a new copy has a version
below them. -/
def Recopies (g g' : Group) : Prop :=
  ∀ server entry', (g'.replicas server).entry = some entry' →
    (∃ entry, (g.replicas server).entry = some entry ∧ entry'.log = entry.log ∧
      (entry'.version = entry.version ∨ ∀ version, InUse g version → version ≤ entry.version)) ∨
    ∀ version, InUse g version → entry'.version < version

theorem Settled.recopy {m : Mutation} (settled : Settled g m server) (recopies : Recopies g g')
    (used : InUse g m.request.version) : Settled g' m server := by
  intro entry' found high
  rcases recopies server entry' found with ⟨entry, old, log, same | above⟩ | below
  · exact log ▸ settled entry old (same ▸ high)
  · exact log ▸ settled entry old (above _ used)
  · exact absurd (below _ used) (not_lt.mpr high)

theorem Behind.recopy {version : Nat} (behind : Behind g version server) (recopies : Recopies g g')
    (used : InUse g version) : Behind g' version server := by
  intro entry' found
  rcases recopies server entry' found with ⟨entry, old, _, same | above⟩ | below
  · exact same ▸ behind entry old
  · exact absurd (behind entry old) (not_lt.mpr (above _ used))
  · exact below _ used

theorem Settling.recopy (inv : Settling g) (recopies : Recopies g g')
    (frames : ∀ server, (g'.replicas server).frame = (g.replicas server).frame)
    (calls : g'.calls = g.calls) (requests : g'.requests = g.requests)
    (replies : g'.replies = g.replies) (ended : g'.ended = g.ended) (acked : g'.acked = g.acked) :
    Settling g' := by
  have flight : ∀ m, InFlight g' m → InFlight g m := by
    rintro m (⟨q, member, same⟩ | ⟨server, stage, found⟩)
    · exact .inl ⟨q, requests ▸ member, same⟩
    · exact .inr ⟨server, stage, frames server ▸ found⟩
  have succeeded : ∀ r, Succeeded g' r → Succeeded g r := by
    rintro r ⟨ok, member⟩
    exact ⟨ok, replies ▸ ended ▸ member⟩
  have silent : ∀ call, Silent g call → Silent g' call := fun call old =>
    ⟨fun m flies => old.flight m (flight m flies), fun r ok => old.reply r (succeeded r ok)⟩
  constructor
  · intro server f found isClient
    rw [frames server] at found
    have sound := inv.client server f found isClient
    have used : InUse g f.op.version := .inr ⟨server, f, found, isClient, rfl⟩
    refine ⟨calls ▸ sound.call, sound.request, ?_, fun notYet => silent _ (sound.early notYet), ?_⟩
    · exact fun leased other ne unlisted => (sound.outside leased other ne unlisted).recopy recopies used
    · intro secondaries request stage
      obtain ⟨settled, agrees⟩ := sound.late secondaries request stage
      have version : request.version = f.op.version := sound.request request (by rw [stage]; rfl)
      have used' : InUse g request.version := version ▸ used
      refine ⟨settled.recopy recopies used', fun m flies => agrees.flight m (flight m flies), ?_⟩
      exact fun r ok same => (agrees.reply r (succeeded r ok) same).recopy recopies used'
  · exact fun server f found => inv.secondary server f (frames server ▸ found)
  · exact fun first second f f' found found' =>
      inv.distinct first second f f' (frames first ▸ found) (frames second ▸ found')
  · exact fun call large => silent call (inv.silent call (calls ▸ large))
  · intro m member server
    rw [acked] at member
    exact (inv.acked m member server).recopy recopies (.inl ⟨m, member, rfl⟩)

/-! ## No step invents a version -/

theorem inUse_of {version : Nat} (used : InUse g' version)
    (frames : ∀ server f, (g'.replicas server).frame = some f → f.op.isClient = true →
      ∃ old, (g.replicas server).frame = some old ∧ old.op = f.op)
    (acked : ∀ m ∈ g'.acked, m ∈ g.acked ∨ InUse g m.request.version) : InUse g version := by
  rcases used with ⟨m, member, rfl⟩ | ⟨server, f, found, isClient, rfl⟩
  · rcases acked m member with old | used
    · exact .inl ⟨m, old, rfl⟩
    · exact used
  · obtain ⟨old, found', same⟩ := frames server f found isClient
    exact .inr ⟨server, old, found', same ▸ isClient, same ▸ rfl⟩

theorem frames_setReplica (replicas : g'.replicas = (g.setReplica server r).replicas)
    (own : ∀ f, r.frame = some f → f.op.isClient = true →
      ∃ old, (g.replicas server).frame = some old ∧ old.op = f.op) :
    ∀ server f, (g'.replicas server).frame = some f → f.op.isClient = true →
      ∃ old, (g.replicas server).frame = some old ∧ old.op = f.op := by
  intro other f found isClient
  rw [replicas] at found
  by_cases eq : other = server
  · subst eq
    rw [Group.setReplica_self] at found
    exact own f found isClient
  · rw [Group.setReplica_of_ne eq] at found
    exact ⟨f, found, rfl⟩

theorem inUse_startClient {op : MutationOp} {version : Nat} (h : g.startClient server op = some g')
    (used : InUse g' version) : InUse g version ∨ version = op.version := by
  simp only [Group.startClient, Option.ite_none_right_eq_some, Option.map_eq_some_iff] at h
  obtain ⟨_, out, started, rfl⟩ := h
  rcases used with acked | ⟨other, f, found, isClient, rfl⟩
  · exact .inl (.inl acked)
  · by_cases eq : other = server
    · subst eq
      rcases Replica.start_cases started with ⟨_, rfl⟩ | ⟨_, rfl⟩
      · exact .inl (.inr ⟨other, f, by simpa using found, isClient, rfl⟩)
      · have same : f = ⟨⟨other, g.calls⟩, op, .locked⟩ := by
          simpa [Replica.goto] using found.symm
        exact .inr (same ▸ rfl)
    · refine .inl (.inr ⟨other, f, ?_, isClient, rfl⟩)
      simpa [Group.setReplica_of_ne eq] using found

theorem inUse_deliver {q : Forward} {version : Nat} (h : g.deliver q = some g')
    (used : InUse g' version) : InUse g version := by
  simp only [Group.deliver, Option.ite_none_right_eq_some, Option.map_eq_some_iff] at h
  obtain ⟨_, out, started, rfl⟩ := h
  refine inUse_of used (frames_setReplica rfl fun f found isClient => ?_) fun m => .inl
  rcases Replica.start_cases started with ⟨_, rfl⟩ | ⟨_, rfl⟩
  · exact ⟨f, found, rfl⟩
  · obtain rfl := Option.some.inj found
    cases isClient

theorem inUse_advance {cfg : Config} {io : Io} {version : Nat}
    (h : g.advance cfg io server = some g') (used : InUse g' version) : InUse g version := by
  obtain ⟨f, out, frame, advanced, rfl⟩ := Group.advance_cases h
  refine inUse_of used (frames_setReplica rfl fun f' found isClient => ?_) fun m => .inl
  cases Replica.advance_progress advanced with
  | answer => cases found
  | move frame' =>
      obtain rfl := Option.some.inj found
      exact ⟨_, frame', rfl⟩
  | storeLocal frame' =>
      obtain rfl := Option.some.inj found
      exact ⟨_, frame', rfl⟩
  | storeFailed => cases found
  | storeForwarded => cases found

theorem inUse_finish {version : Nat} (inv : Settling g) (h : g.finish server = some g')
    (used : InUse g' version) : InUse g version := by
  obtain ⟨origin, op, secondaries, request, frame, _, rfl⟩ := Group.finish_cases h
  refine inUse_of used (frames_setReplica rfl ?_) fun m member => ?_
  · intro f found
    cases found
  · rcases List.mem_append.mp member with old | new
    · exact .inl old
    · split at new
      · obtain rfl := List.mem_singleton.mp new
        have isClient := inv.isClient frame rfl
        have same := (inv.client server _ frame isClient).request request rfl
        exact .inr (.inr ⟨server, _, frame, isClient, same.symm⟩)
      · cases new

theorem inUse_same {version : Nat} (used : InUse g' version)
    (frames : ∀ server, (g'.replicas server).frame = (g.replicas server).frame)
    (acked : g'.acked = g.acked) : InUse g version :=
  inUse_of used (fun server f found _ => ⟨f, frames server ▸ found, rfl⟩)
    fun _ member => .inl (acked ▸ member)

end

end Gfs.Chunkserver.Settle
