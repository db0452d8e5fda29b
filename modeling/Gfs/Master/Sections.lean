import Gfs.Master.References
import Gfs.Master.Live

/-!
# What a section does

The inversion of a step: what became of the state and of the log, and what became of the call that
took the step. The invariants follow from these two, without the definitions of the sections.
-/

namespace Gfs.Master
open Lib.Maps LockTable

/-! ## The state and the log -/

namespace Live

/-- The namespace is the same, and so are the references in the table. -/
structure Kept (s s' : Live) (records : List LogRecord) : Prop where
  files : s'.state.files = s.state.files
  nextHandle : s'.state.nextHandle = s.state.nextHandle
  chunks : Tended s.state.chunks s'.state.chunks records
  log : s'.log = s.log ++ records

/-- The chunkservers that have created a chunk are in its locations now. -/
def located (s : Live) (handle : Handle) (ok : List ServerId) : MasterState :=
  { s.state with chunks := addLocations s.state.chunks handle ok s.now }

end Live

open Live

inductive Wrote (cfg : Config) (s : Live) : Action → Live → Prop
  | quiet {a : Action} {s' : Live} (kept : Kept s s' [])
      (leases : AllQuiet s.state.chunks s'.state.chunks) : Wrote cfg s a s'
  | heard {id : Nat} {req : HeartBeatRequest} {server : ServerId} {time : TimePoint} {s' : Live}
      (kept : Kept s s' (s.state.chunks.heartBeat cfg time server req).records)
      (leases : AllQuiet s.state.chunks s'.state.chunks) : Wrote cfg s (.hear id req) s'
  | committed {handle : Handle} {client : Option Nat} {round : Nat} {attempt : Attempt}
      {m : ChunkMeta} {s' : Live}
      (grant : s.grants[handle]? = some ⟨client, .waiting round attempt⟩)
      (found : s.state.chunks[handle]? = some m)
      (chunks : s'.state.chunks = s.state.chunks.insert handle (m.commit cfg s.now attempt))
      (kept : Kept s s' [.bumpVersion handle (max m.version attempt.version)]) :
      Wrote cfg s (.settle handle []) s'
  | created {id : Nat} {path : Str} {s' : Live} (valid : checkPath path = true)
      (free : s.isFree (normalize (forPath path .write)) = true) (isOpen : s.isOpen path = true)
      (state : s'.state = s.state.applyCreate path) (log : s'.log = s.log ++ [.create path]) :
      Wrote cfg s (.create id path) s'
  | hidden {id : Nat} {path : Str} {unixSeconds : Int} {s' : Live} (valid : checkPath path = true)
      (free : s.isFree (normalize (forPath path .write)) = true) (there : path ∈ s.state.files)
      (shown : isHiddenPath path = false)
      (state : s'.state =
        s.state.applyRename path (s.state.files.freshHiddenName path unixSeconds))
      (log : s'.log =
        s.log ++ [.rename path (s.state.files.freshHiddenName path unixSeconds)]) :
      Wrote cfg s (.remove id path unixSeconds) s'
  | removed {a : Action} {path : Str} {s' : Live}
      (free : s.isFree (normalize (forPath path .write)) = true) (there : path ∈ s.state.files)
      (isRemoval : (∃ id unixSeconds, a = .remove id path unixSeconds ∧ isHiddenPath path = true) ∨
        ∃ id expired lastSeq, a = .gcRemove id ∧
          s.calls[id]? = some (.gc (path :: expired) lastSeq))
      (state : s'.state = s.state.applyRemove path) (log : s'.log = s.log ++ [.remove path]) :
      Wrote cfg s a s'
  | renamed {id : Nat} {m : Move} {s' : Live} (call : s.calls[id]? = some (.move m))
      (kind : m.kind = .rename) (ready : m.todo = [] ∧ m.revoking = none)
      (calls : s'.calls = s.calls.insert id (.flushing (Task.move m).locks s'.seq))
      (state : s'.state = s.state.applyRename m.source m.target)
      (log : s'.log = s.log ++ [.rename m.source m.target]) : Wrote cfg s (.finish id) s'
  | snapshotted {id : Nat} {m : Move} {s' : Live} (call : s.calls[id]? = some (.move m))
      (kind : m.kind = .snapshot) (ready : m.todo = [] ∧ m.revoking = none)
      (waited : m.waitUntil ≤ s.now)
      (calls : s'.calls = s.calls.insert id (.flushing (Task.move m).locks s'.seq))
      (state : s'.state = { s.state with
        chunks := m.handles.foldl (resetInvalid cfg s.now) s.state.chunks }.applySnapshot
          m.source m.target)
      (log : s'.log = s.log ++ [.snapshot m.source m.target]) : Wrote cfg s (.finish id) s'
  | allocated {id : Nat} {task task' : Task} {s' : Live} (call : s.calls[id]? = some task)
      (fresh : task'.creating = some s.state.nextHandle) (none : task.creating = none)
      (calls : s'.calls = s.calls.insert id task') (state : s'.state = s.allocHandle.state)
      (log : s'.log = s.log ++ [.allocHandle s.state.nextHandle]) : Wrote cfg s (.alloc id) s'
  | replaced {id : Nat} {ok : List ServerId} {f : Find} {old fresh : Handle}
      {holders : List ServerId} {seq : Nat} {s' : Live} (call : s.calls[id]? = some (.find f))
      (phase : f.phase = .copying old fresh holders seq)
      (calls : s'.calls = s.calls.insert id (.find { f with phase := .copied fresh s'.seq }))
      (state : s'.state = (s.located fresh ok).applyReplaceChunk f.path f.index fresh)
      (log : s'.log = s.log ++ [.replaceChunk f.path f.index fresh])
      (isEnough : enough cfg ok = true) : Wrote cfg s (.endCopy id ok) s'
  | added {id : Nat} {ok : List ServerId} {path : Str} {index : Nat} {handle : Handle} {seq : Nat}
      {s' : Live} (call : s.calls[id]? = some (.add path index (.creating handle seq)))
      (calls : s'.calls =
        s.calls.insert id (.flushing (normalize (forPath path .write)) s'.seq))
      (state : s'.state = (s.located handle ok).applyAddChunk path index handle)
      (log : s'.log = s.log ++ [.addChunk path index handle]) : Wrote cfg s (.endAdd id ok) s'
  | abandoned {a : Action} {id : Nat} {task : Task} {handle : Handle} {s' : Live}
      (call : s.calls[id]? = some task) (creating : task.creating = some handle)
      (calls : s'.calls = s.calls.erase id) (state : s'.state = (s.abandon handle).state)
      (log : s'.log = s.log)
      (ends : ∃ ok, (a = .endCopy id ok ∨ a = .endAdd id ok) ∧ enough cfg ok = false) :
      Wrote cfg s a s'
  | dropped {id : Nat} {s' : Live}
      (state : s'.state = s.orphans.foldl MasterState.applyDropChunk s.state)
      (log : s'.log = s.log ++ s.orphans.map LogRecord.dropChunk) : Wrote cfg s (.gcDrop id) s'
  | restarted {kept : Nat} {s' : Live} (calls : s'.calls = ∅)
      (state : s'.state = (({} : MasterState).replay (s.log.take kept)).recomputeRefcounts)
      (log : s'.log = s.log.take kept) (grants : s'.grants = ∅) : Wrote cfg s (.restart kept) s'

/-! ## The call that took the step -/

/-- The `Grant` of the call has returned. -/
def Live.Released (s s' : Live) (id : Nat) : Prop :=
  ∃ handle stage, s.grants[handle]? = some ⟨some id, stage⟩ ∧ s'.grants = s.grants.erase handle

/-- What `FindLeaseHolder` read before it went on to the phase. -/
inductive FindStep (s s' : Live) (id : Nat) (f : Find) : FindPhase → Prop
  | unshared {handle : Handle} {m : ChunkMeta} (phase : f.phase = .attempt)
      (position : s.position f.path f.index = some handle)
      (found : s.state.chunks[handle]? = some m) (count : m.refcount ≤ 1) :
      FindStep s s' id f (.decide handle)
  | shared {handle : Handle} (phase : f.phase = .attempt)
      (position : s.position f.path f.index = some handle) : FindStep s s' id f (.copyOnWrite handle)
  | moved {old handle : Handle} (phase : f.phase = .copyOnWrite old)
      (position : s.position f.path f.index = some handle) (different : handle ≠ old) :
      FindStep s s' id f (.decide handle)
  | sole {old : Handle} {m : ChunkMeta} (phase : f.phase = .copyOnWrite old)
      (position : s.position f.path f.index = some old) (found : s.state.chunks[old]? = some m)
      (count : m.refcount ≤ 1) : FindStep s s' id f (.decide old)
  | copy {old : Handle} {holders : List ServerId} (phase : f.phase = .copyOnWrite old)
      (position : s.position f.path f.index = some old)
      (free : ∀ (other : Nat) task, s.calls[other]? = some task → task.holdsCow = false)
      (alive : ∀ server ∈ holders, s.resolves server = true) :
      FindStep s s' id f (.alloc old holders)
  | allocated {old : Handle} {holders : List ServerId} {seq : Nat}
      (phase : f.phase = .alloc old holders) (state : s'.state = s.allocHandle.state) :
      FindStep s s' id f (.copying old s.state.nextHandle holders seq)
  | replaced {old fresh : Handle} {holders ok : List ServerId} {seq seq' : Nat}
      (phase : f.phase = .copying old fresh holders seq)
      (state : s'.state = (s.located fresh ok).applyReplaceChunk f.path f.index fresh) :
      FindStep s s' id f (.copied fresh seq')
  | copied {handle : Handle} {seq : Nat} (phase : f.phase = .copied handle seq) :
      FindStep s s' id f (.decide handle)
  | parked {handle : Handle} {until_ : TimePoint} (phase : f.phase = .decide handle) :
      FindStep s s' id f (.parked until_)
  | queued {handle : Handle} (phase : f.phase = .decide handle) : FindStep s s' id f (.queued handle)
  | woken {until_ : TimePoint} (phase : f.phase = .parked until_) : FindStep s s' id f .attempt
  | granting {handle : Handle} (phase : f.phase = .queued handle) : FindStep s s' id f (.granting handle)
  | granted {handle : Handle} (phase : f.phase = .granting handle)
      (released : Released s s' id) : FindStep s s' id f (.granted handle)

inductive Begins (s s' : Live) : Task → Prop
  | move {kind : MoveKind} {source target : Str} {handles : List Handle} {waitUntil : TimePoint}
      (source' : checkPath source = true) (target' : checkPath target = true)
      (outside : isAncestorOrSelf source target = false)
      (there : (s.state.files.contains source || s.state.files.isDirectory source) = true)
      (isOpen : s.isOpen target = true) (handles' : handles = s.handlesOf kind source)
      (state : s'.state = s.state) :
      Begins s s' (.move { kind, source, target, handles, todo := handles, waitUntil })
  | find {path : Str} {index : Nat} (valid : checkPath path = true) : Begins s s' (.find { path, index })
  | add {path : Str} {index : Nat} (valid : checkPath path = true) : Begins s s' (.add path index .alloc)
  | flushing {locks : List LockRequest} {seq : Nat} : Begins s s' (.flushing locks seq)
  | beat {server : ServerId} {time : TimePoint} (alive : s'.resolves server = true) :
      Begins s s' (.beat server time)
  | sweep {time : TimePoint} {dead : List ServerId} : Begins s s' (.sweep time dead)
  | gc {expired : List Str} {lastSeq : Nat} : Begins s s' (.gc expired lastSeq)

inductive Advances (s s' : Live) (id : Nat) : Task → Task → Prop
  | moving {m m' : Move} (kind : m'.kind = m.kind) (source : m'.source = m.source)
      (target : m'.target = m.target) (handles : m'.handles = m.handles)
      (barred : ∀ handle ∈ m.todo, handle ∉ m'.todo → ∀ chunk,
        s'.state.chunks[handle]? = some chunk → chunk.Barred) :
      Advances s s' id (.move m) (.move m')
  | finding {f f' : Find} (path : f'.path = f.path) (index : f'.index = f.index)
      (next : FindStep s s' id f f'.phase) : Advances s s' id (.find f) (.find f')
  | adding {path : Str} {index seq : Nat} (state : s'.state = s.allocHandle.state) :
      Advances s s' id (.add path index .alloc) (.add path index (.creating s.state.nextHandle seq))
  | finishing {task : Task} {locks : List LockRequest} {seq : Nat} (same : locks = task.locks)
      (notFind : ∀ f, task ≠ .find f)
      (moved : ∀ m, task = .move m → ∃ record, s'.log = s.log ++ [record] ∧
        (record = .rename m.source m.target ∨ record = .snapshot m.source m.target)) :
      Advances s s' id task (.flushing locks seq)
  | collecting {expired expired' : List Str} {lastSeq lastSeq' : Nat} :
      Advances s s' id (.gc expired lastSeq) (.gc expired' lastSeq')

/-- The grant has passed its first look at the chunk and goes on with it. -/
def GrantStage.isUnder : GrantStage → Bool
  | .preparing _ | .waiting .. | .clearing => true
  | .checking | .returning .. => false

inductive Grants (cfg : Config) (s s' : Live) : Prop
  | same (grants : s'.grants = s.grants)
  | opened (id : Nat) (f : Find) (handle : Handle) (found : s.calls[id]? = some (.find f))
      (phase : f.phase = .queued handle) (fresh : s.grants[handle]? = none)
      (calls : s'.calls = s.calls.insert id (.find { f with phase := .granting handle }))
      (grants : s'.grants = s.grants.insert handle ⟨some id, .preparing 0⟩)
  | regranting (handle : Handle) (grants : s'.grants = s.grants.insert handle ⟨none, .checking⟩)
  | staged (handle : Handle) (client : Option Nat) (stage stage' : GrantStage)
      (found : s.grants[handle]? = some ⟨client, stage⟩)
      (under : stage'.isUnder = true → stage.isUnder = true ∨
        ∃ m, s.state.chunks[handle]? = some m ∧ m.isValid cfg s.now = true)
      (grants : s'.grants = s.grants.insert handle ⟨client, stage'⟩)
      (alive : ∀ round attempt, stage' = .waiting round attempt →
        ∀ server ∈ attempt.primary :: attempt.secondaries, s.resolves server = true)
  | closed (handle : Handle) (grants : s'.grants = s.grants.erase handle)
  | lost (grants : s'.grants = ∅)

inductive Turn (cfg : Config) (s s' : Live) : Prop
  | same (calls : s'.calls = s.calls) (answer : s'.answer = s.answer)
      (grants : Grants cfg s s')
  | begun (id : Nat) (task : Task) (fresh : s.calls[id]? = none)
      (free : s.isFree task.locks = true) (begins : Begins s s' task)
      (calls : s'.calls = s.calls.insert id task) (answer : s'.answer = s.answer)
      (grants : Grants cfg s s')
  | turned (id : Nat) (task task' : Task) (found : s.calls[id]? = some task)
      (calls : s'.calls = s.calls.insert id task') (advances : Advances s s' id task task')
      (answer : s'.answer = s.answer) (grants : Grants cfg s s')
  | ended (id : Nat) (task : Task) (found : s.calls[id]? = some task)
      (idle : ∀ f handle, task = .find f → f.phase = .granting handle → Released s s' id)
      (calls : s'.calls = s.calls.erase id) (answer : s'.answer = s.answer)
      (grants : Grants cfg s s')
  | answered (id : Nat) (f : Find) (handle : Handle) (found : s.calls[id]? = some (.find f))
      (phase : f.phase = .decide handle ∨ f.phase = .granted handle)
      (calls : s'.calls = s.calls.erase id) (state : s'.state = s.state)
      (answer : s'.answer = some ⟨f.path, f.index, handle⟩)
      (grants : Grants cfg s s')
  | lost (calls : s'.calls = ∅) (answer : s'.answer = none) (grants : s'.grants = ∅)

theorem Advances.locks {s s' : Live} {id : Nat} {task task' : Task}
    (advances : Advances s s' id task task') : task'.locks = task.locks := by
  cases advances with
  | moving kind source target => simp [Task.locks, source, target]
  | finding path index next => simp [Task.locks, path]
  | adding => rfl
  | finishing same => exact same
  | collecting => rfl

namespace Live

section
variable {cfg : Config} {s s' : Live} {id : Nat} {a : Action} {handle : Handle} {path : Str}

theorem Kept.same (state : s'.state = s.state) (log : s'.log = s.log) : Kept s s' [] :=
  ⟨by rw [state], by rw [state], state ▸ .refl, by rw [log, List.append_nil]⟩

theorem Wrote.same (state : s'.state = s.state) (log : s'.log = s.log) : Wrote cfg s a s' :=
  .quiet (.same state log) (state ▸ .refl)

theorem Wrote.setChunk {m m' : ChunkMeta} (found : s.state.chunks[handle]? = some m)
    (state : s'.state = { s.state with chunks := s.state.chunks.insert handle m' })
    (log : s'.log = s.log) (refcount : m'.refcount = m.refcount)
    (pending : m'.pending = m.pending) (version : m'.version = m.version) (quiet : Quiet m m') :
    Wrote cfg s a s' := by
  refine .quiet ⟨by rw [state], by rw [state], ?_, by rw [log, List.append_nil]⟩ ?_
  · rw [state]
    exact .insert found refcount pending version
  · rw [state]
    exact .insert found quiet

theorem begin_eq {locks : List LockRequest} {body : Live}
    (taken : s.begin id locks body = some s') :
    s.calls[id]? = none ∧ s.isFree locks = true ∧ s' = body := by
  unfold Live.begin at taken
  split at taken
  · rename_i both
    rw [Bool.and_eq_true, Bool.not_eq_true', ← Bool.not_eq_true, Std.ExtTreeMap.contains_iff_mem]
      at both
    cases taken
    exact ⟨Std.ExtTreeMap.getElem?_eq_none both.1, both.2, rfl⟩
  · cases taken

theorem idle_of {f : Find} {phase : FindPhase} (here : f.phase = phase)
    (other : ∀ handle, phase ≠ .granting handle) (g : Find) (handle : Handle)
    (same : Task.find f = .find g) (granting : g.phase = .granting handle) :
    Released s s' id := by
  cases same
  exact absurd (here.symm.trans granting) (other handle)

theorem Turn.flushing {locks : List LockRequest} {seq : Nat} (fresh : s.calls[id]? = none)
    (free : s.isFree locks = true) (calls : s'.calls = s.calls.insert id (.flushing locks seq))
    (answer : s'.answer = s.answer) (grants : Grants cfg s s') :
    Turn cfg s s' :=
  .begun id (.flushing locks seq) fresh free .flushing calls answer grants

/-! ## The sections, one by one -/

theorem create_section (taken : s.create id path = some s') :
    Wrote cfg s (.create id path) s' ∧ Turn cfg s s' := by
  unfold Live.create at taken
  split at taken
  · cases taken
    exact ⟨Wrote.same rfl rfl, .same rfl rfl (.same rfl)⟩
  · rename_i valid
    obtain ⟨fresh, free, rfl⟩ := begin_eq taken
    split
    · rename_i isOpen
      exact ⟨.created (by simpa using valid) free isOpen rfl rfl,
        Turn.flushing fresh free rfl rfl (.same rfl)⟩
    · exact ⟨Wrote.same rfl rfl, .same rfl rfl (.same rfl)⟩

theorem remove_section {unixSeconds : Int} (taken : s.remove id path unixSeconds = some s') :
    Wrote cfg s (.remove id path unixSeconds) s' ∧ Turn cfg s s' := by
  unfold Live.remove at taken
  split at taken
  · cases taken
    exact ⟨Wrote.same rfl rfl, .same rfl rfl (.same rfl)⟩
  · rename_i valid
    obtain ⟨fresh, free, rfl⟩ := begin_eq taken
    split
    · exact ⟨Wrote.same rfl rfl, .same rfl rfl (.same rfl)⟩
    · rename_i there
      have there : path ∈ s.state.files :=
        Std.ExtTreeMap.contains_iff_mem.mp (by simpa using there)
      split
      · rename_i isHidden
        exact ⟨.removed free there (.inl ⟨id, unixSeconds, rfl, isHidden⟩) rfl rfl,
          Turn.flushing fresh free rfl rfl (.same rfl)⟩
      · rename_i shown
        exact ⟨.hidden (by simpa using valid) free there (by simpa using shown) rfl rfl,
          Turn.flushing fresh free rfl rfl (.same rfl)⟩

theorem move_section {kind : MoveKind} {source target : Str}
    (taken : s.move id kind source target = some s') :
    Wrote cfg s (.move id kind source target) s' ∧ Turn cfg s s' := by
  unfold Live.move at taken
  split at taken
  · cases taken
    exact ⟨Wrote.same rfl rfl, .same rfl rfl (.same rfl)⟩
  · rename_i valid
    simp only [Bool.or_eq_true, Bool.not_eq_true', decide_eq_true_eq, not_or, Bool.not_eq_false,
      Bool.not_eq_true] at valid
    obtain ⟨⟨⟨source', target'⟩, _⟩, outside⟩ := valid
    obtain ⟨fresh, free, rfl⟩ := begin_eq taken
    split
    · rename_i both
      rw [Bool.and_eq_true] at both
      refine ⟨Wrote.same rfl rfl,
        .begun id _ fresh ?_ (.move source' target' outside both.1 both.2 rfl rfl)
          rfl rfl (.same rfl)⟩
      exact free
    · exact ⟨Wrote.same rfl rfl, .same rfl rfl (.same rfl)⟩

theorem revokeLocked_barred (cfg : Config) (now : TimePoint) (m : ChunkMeta) :
    (m.revokeLocked cfg now).2.Barred := by
  unfold ChunkMeta.revokeLocked
  split
  · rename_i none
    intro l lease
    rw [none] at lease
    cases lease
  · split
    · exact fun l lease => nomatch lease
    · intro l lease
      obtain rfl := Option.some.inj lease
      rfl

theorem revokeLocked_kept (cfg : Config) (now : TimePoint) (m : ChunkMeta) :
    (m.revokeLocked cfg now).2.refcount = m.refcount ∧
      (m.revokeLocked cfg now).2.pending = m.pending ∧
      (m.revokeLocked cfg now).2.version = m.version ∧ Quiet m (m.revokeLocked cfg now).2 := by
  unfold ChunkMeta.revokeLocked
  split
  · exact ⟨rfl, rfl, rfl, .refl⟩
  · rename_i l lease
    split
    · exact ⟨rfl, rfl, rfl, .of_none rfl⟩
    · refine ⟨rfl, rfl, rfl, fun none => ?_, fun l' found revoked => ?_⟩
      · rw [lease] at none
        cases none
      · obtain rfl := Option.some.inj (lease.symm.trans found)
        right
        rw [← revoked]

theorem revoke_section (taken : s.revoke cfg id = some s') :
    Wrote cfg s (.revoke id) s' ∧ Turn cfg s s' := by
  unfold Live.revoke at taken
  split at taken
  · rename_i m call
    split at taken
    · rename_i handle todo first _
      have next : ∀ other ∈ m.todo, other ∉ todo → other = handle := by
        intro other member gone
        rw [first] at member
        exact (List.mem_cons.mp member).resolve_right gone
      split at taken
      · rename_i absent
        cases taken
        refine ⟨Wrote.same rfl rfl, .turned id _ _ call rfl (.moving rfl rfl rfl rfl ?_) rfl (.same rfl)⟩
        intro other member gone chunk found
        obtain rfl := next other member gone
        exact nomatch absent.symm.trans found
      · rename_i chunk found
        obtain ⟨refcount, pending, version, quiet⟩ := revokeLocked_kept cfg s.now chunk
        cases taken
        refine ⟨Wrote.setChunk found rfl rfl refcount pending version quiet,
          .turned id _ _ call rfl (.moving rfl rfl rfl rfl ?_) rfl (.same rfl)⟩
        intro other member gone chunk' found'
        obtain rfl := next other member gone
        have same : chunk' = (chunk.revokeLocked cfg s.now).2 := by
          refine Option.some.inj (found'.symm.trans (getElem?_insert.trans ?_))
          exact if_pos rfl
        exact same ▸ revokeLocked_barred cfg s.now chunk
    · cases taken
  · cases taken

theorem revokeAcked_kept (primary : ServerId) (m : ChunkMeta) :
    (m.revokeAcked primary).2.refcount = m.refcount ∧
      (m.revokeAcked primary).2.pending = m.pending ∧
      (m.revokeAcked primary).2.version = m.version ∧ Quiet m (m.revokeAcked primary).2 := by
  unfold ChunkMeta.revokeAcked
  split
  · exact ⟨rfl, rfl, rfl, .refl⟩
  · split
    · exact ⟨rfl, rfl, rfl, .of_none rfl⟩
    · exact ⟨rfl, rfl, rfl, .refl⟩

theorem revoked_section {ok : Bool} (taken : s.revoked cfg id ok = some s') :
    Wrote cfg s (.revoked id ok) s' ∧ Turn cfg s s' := by
  unfold Live.revoked at taken
  split at taken
  · rename_i m call
    have stays : ∀ {s' : Live} {m' : Move}, m'.kind = m.kind → m'.source = m.source →
        m'.target = m.target → m'.handles = m.handles → m'.todo = m.todo →
        Advances s s' id (.move m) (.move m') := by
      intro s' m' kind source target handles todo
      refine .moving kind source target handles fun other member gone => ?_
      rw [todo] at gone
      exact absurd member gone
    split at taken
    · rename_i handle lease revoking
      split at taken
      · cases taken
      · cases found : s.state.chunks[handle]? with
        | none =>
            simp only [found, Option.map_none, Option.some.injEq] at taken
            subst taken
            exact ⟨Wrote.same rfl rfl, .turned id _ _ call rfl (stays rfl rfl rfl rfl rfl) rfl (.same rfl)⟩
        | some chunk =>
            obtain ⟨refcount, pending, version, quiet⟩ :=
              revokeAcked_kept lease.primary chunk
            cases ok with
            | true =>
                simp only [found, Option.map_some, if_true, Option.some.injEq] at taken
                subst taken
                exact ⟨Wrote.setChunk found rfl rfl refcount pending version quiet,
                  .turned id _ _ call rfl (stays rfl rfl rfl rfl rfl) rfl (.same rfl)⟩
            | false =>
                simp only [found, Option.map_some, Option.some.injEq] at taken
                subst taken
                exact ⟨Wrote.same rfl rfl,
                  .turned id _ _ call rfl (stays rfl rfl rfl rfl rfl) rfl (.same rfl)⟩
    · cases taken
  · cases taken

theorem finish_section (taken : s.finish cfg id = some s') :
    Wrote cfg s (.finish id) s' ∧ Turn cfg s s' := by
  unfold Live.finish at taken
  split at taken
  · rename_i m call
    split at taken
    · rename_i ready
      rw [Bool.and_eq_true, List.isEmpty_iff, Option.isNone_iff_eq_none] at ready
      split at taken
      · rename_i kind
        cases taken
        refine ⟨.renamed call kind ready rfl rfl rfl,
          .turned id _ _ call rfl (.finishing rfl (fun _ other => nomatch other) ?_) rfl (.same rfl)⟩
        rintro _ ⟨⟩
        exact ⟨_, rfl, .inl rfl⟩
      · rename_i kind
        split at taken
        · cases taken
        · rename_i waited
          cases taken
          refine ⟨.snapshotted call kind ready (Int.not_lt.mp waited) rfl rfl rfl,
            .turned id _ _ call rfl (.finishing rfl (fun _ other => nomatch other) ?_) rfl
              (.same rfl)⟩
          rintro _ ⟨⟩
          exact ⟨_, rfl, .inr rfl⟩
    · cases taken
  · cases taken

theorem findLeaseHolder_section {index : Nat} (taken : s.findLeaseHolder id path index = some s') :
    Wrote cfg s (.findLeaseHolder id path index) s' ∧ Turn cfg s s' := by
  unfold Live.findLeaseHolder at taken
  split at taken
  · cases taken
    exact ⟨Wrote.same rfl rfl, .same rfl rfl (.same rfl)⟩
  · rename_i valid
    obtain ⟨fresh, free, rfl⟩ := begin_eq taken
    refine ⟨Wrote.same rfl rfl, .begun id (.find { path, index }) fresh ?_ (.find ?_) rfl rfl
      (.same rfl)⟩
    · exact free
    · simpa using valid

theorem attempt_section (taken : s.attempt id = some s') :
    Wrote cfg s (.attempt id) s' ∧ Turn cfg s s' := by
  unfold Live.attempt at taken
  split at taken
  · rename_i f call
    split at taken
    · rename_i phase
      split at taken
      · cases taken
        exact ⟨Wrote.same rfl rfl, .ended id _ call (idle_of phase nofun) rfl rfl (.same rfl)⟩
      · rename_i handle position
        split at taken
        · cases taken
          exact ⟨Wrote.same rfl rfl, .ended id _ call (idle_of phase nofun) rfl rfl (.same rfl)⟩
        · rename_i m found
          cases taken
          refine ⟨Wrote.same rfl rfl, .turned id _ _ call rfl (.finding rfl rfl ?_) rfl (.same rfl)⟩
          dsimp only
          split
          · exact .shared phase position
          · rename_i few
            exact .unshared phase position found (Nat.not_lt.mp few)
    · cases taken
  · cases taken

theorem copiedTo_section {f : Find} (call : s.calls[id]? = some (.find f))
    (idle : ∀ handle, f.phase ≠ .granting handle)
    (next : ∀ s', FindStep s s' id f (.decide handle)) :
    Wrote cfg s a (s.copiedTo id f handle) ∧ Turn cfg s (s.copiedTo id f handle) := by
  unfold Live.copiedTo
  split
  · exact ⟨Wrote.same rfl rfl, .ended id _ call (idle_of rfl idle) rfl rfl (.same rfl)⟩
  · exact ⟨Wrote.same rfl rfl, .turned id _ _ call rfl (.finding rfl rfl (next _)) rfl (.same rfl)⟩

theorem copyOnWrite_section (taken : s.copyOnWrite id = some s') :
    Wrote cfg s (.copyOnWrite id) s' ∧ Turn cfg s s' := by
  unfold Live.copyOnWrite at taken
  split at taken
  · rename_i f call
    split at taken
    · rename_i old phase
      split at taken
      · cases taken
      · rename_i free
        have free : ∀ (id : Nat) task, s.calls[id]? = some task → task.holdsCow = false := by
          intro id task found
          by_contra holds
          exact free (List.any_eq_true.mpr
            ⟨(id, task), Std.ExtTreeMap.mem_toList_iff_getElem?_eq_some.mpr found, by simpa using holds⟩)
        split at taken
        · cases taken
          exact ⟨Wrote.same rfl rfl, .ended id _ call (idle_of phase nofun) rfl rfl (.same rfl)⟩
        · rename_i handle position
          split at taken
          · rename_i different
            cases taken
            exact copiedTo_section call (by simp [phase]) fun _ => .moved phase position different
          · rename_i same
            obtain rfl : handle = old := by simpa using same
            split at taken
            · cases taken
              exact ⟨Wrote.same rfl rfl, .ended id _ call (idle_of phase nofun) rfl rfl (.same rfl)⟩
            · rename_i m found
              split at taken
              · rename_i few
                cases taken
                exact copiedTo_section call (by simp [phase]) fun _ => .sole phase position found few
              · cases taken
                have alive : ∀ server ∈ m.live s.resolves, s.resolves server = true :=
                  fun _ member => (List.mem_filter.mp member).2
                exact ⟨Wrote.same rfl rfl, .turned id _ _ call rfl
                  (.finding rfl rfl (.copy phase position free alive)) rfl (.same rfl)⟩
    · cases taken
  · cases taken

theorem alloc_section (taken : s.alloc id = some s') :
    Wrote cfg s (.alloc id) s' ∧ Turn cfg s s' := by
  unfold Live.alloc at taken
  dsimp only at taken
  split at taken
  · rename_i f call
    split at taken
    · rename_i old holders phase
      cases taken
      refine ⟨.allocated call rfl ?_ rfl rfl rfl, .turned id _ _ call rfl ?_ rfl (.same rfl)⟩
      · obtain ⟨path, index, _⟩ := f
        cases phase
        rfl
      · exact .finding rfl rfl (.allocated phase rfl)
    · cases taken
  · rename_i path index call
    cases taken
    exact ⟨.allocated call rfl rfl rfl rfl rfl, .turned id _ _ call rfl (.adding rfl) rfl (.same rfl)⟩
  · cases taken

theorem creating_find {f : Find} {old fresh : Handle} {holders : List ServerId} {seq : Nat}
    (phase : f.phase = .copying old fresh holders seq) :
    (Task.find f).creating = some fresh := by
  cases f
  cases phase
  rfl

theorem endCopy_section {ok : List ServerId} (taken : s.endCopy cfg id ok = some s') :
    Wrote cfg s (.endCopy id ok) s' ∧ Turn cfg s s' := by
  unfold Live.endCopy at taken
  split at taken
  · rename_i f call
    split at taken
    · rename_i old fresh holders seq phase
      split at taken
      · split at taken
        · rename_i isEnough
          cases taken
          exact ⟨.replaced call phase rfl rfl rfl isEnough,
            .turned id _ _ call rfl (.finding rfl rfl (.replaced phase rfl)) rfl (.same rfl)⟩
        · rename_i few
          cases taken
          exact ⟨.abandoned call (creating_find phase) rfl rfl rfl ⟨ok, .inl rfl, by simpa using few⟩,
            .ended id _ call (idle_of phase nofun) rfl rfl (.same rfl)⟩
      · cases taken
    · cases taken
  · cases taken

theorem copied_section (taken : s.copied id = some s') :
    Wrote cfg s (.copied id) s' ∧ Turn cfg s s' := by
  unfold Live.copied at taken
  split at taken
  · rename_i f call
    split at taken
    · rename_i fresh seq phase
      split at taken
      · cases taken
        exact copiedTo_section call (by simp [phase]) fun _ => .copied phase
      · cases taken
    · cases taken
  · cases taken

theorem decideLease_section (taken : s.decideLease cfg id = some s') :
    Wrote cfg s (.decideLease id) s' ∧ Turn cfg s s' := by
  unfold Live.decideLease at taken
  split at taken
  · rename_i f call
    split at taken
    · rename_i handle phase
      split at taken
      · cases taken
        exact ⟨Wrote.same rfl rfl, .ended id _ call (idle_of phase nofun) rfl rfl (.same rfl)⟩
      · rename_i m found
        split at taken
        · cases taken
          exact ⟨Wrote.same rfl rfl, .answered id f handle call (.inl phase) rfl rfl rfl (.same rfl)⟩
        · split at taken
          · cases taken
            exact ⟨Wrote.same rfl rfl,
              .turned id _ _ call rfl (.finding rfl rfl (.queued phase)) rfl (.same rfl)⟩
          · split at taken
            · cases taken
              exact ⟨Wrote.same rfl rfl,
                .turned id _ _ call rfl (.finding rfl rfl (.parked phase)) rfl (.same rfl)⟩
            · cases taken
              exact ⟨Wrote.setChunk found rfl rfl rfl rfl rfl (.of_none rfl),
                .turned id _ _ call rfl (.finding rfl rfl (.queued phase)) rfl (.same rfl)⟩
    · cases taken
  · cases taken

theorem wake_section (taken : s.wake id = some s') : Wrote cfg s (.wake id) s' ∧ Turn cfg s s' := by
  unfold Live.wake at taken
  split at taken
  · rename_i f call
    split at taken
    · rename_i until_ phase
      split at taken
      · cases taken
      · cases taken
        exact ⟨Wrote.same rfl rfl, .turned id _ _ call rfl (.finding rfl rfl (.woken phase)) rfl (.same rfl)⟩
    · cases taken
  · cases taken

theorem grant_section (taken : s.grant id = some s') : Wrote cfg s (.grant id) s' ∧ Turn cfg s s' := by
  unfold Live.grant at taken
  split at taken
  · rename_i f call
    split at taken
    · rename_i handle phase
      split at taken
      · cases taken
      · rename_i fresh
        cases taken
        refine ⟨Wrote.same rfl rfl, .turned id _ _ call rfl (.finding rfl rfl (.granting phase)) rfl ?_⟩
        exact .opened id f handle call phase (Std.ExtTreeMap.getElem?_eq_none fun there =>
          fresh (Std.ExtTreeMap.contains_iff_mem.mpr there)) rfl rfl
    · cases taken
  · cases taken

theorem respond_section (taken : s.respond id = some s') :
    Wrote cfg s (.respond id) s' ∧ Turn cfg s s' := by
  unfold Live.respond at taken
  split at taken
  · rename_i f call
    split at taken
    · rename_i handle phase
      cases taken
      exact ⟨Wrote.same rfl rfl, .answered id f handle call (.inr phase) rfl rfl rfl (.same rfl)⟩
    · cases taken
  · cases taken

theorem requestRegrant_section (taken : s.requestRegrant handle = some s') :
    Wrote cfg s (.requestRegrant handle) s' ∧ Turn cfg s s' := by
  unfold Live.requestRegrant at taken
  split at taken
  · cases taken
    exact ⟨Wrote.same rfl rfl, .same rfl rfl (.same rfl)⟩
  · cases taken

theorem regrant_section (taken : s.regrant handle = some s') :
    Wrote cfg s (.regrant handle) s' ∧ Turn cfg s s' := by
  unfold Live.regrant at taken
  split at taken
  · cases taken
    exact ⟨Wrote.same rfl rfl, .same rfl rfl (.regranting handle rfl)⟩
  · cases taken

theorem recheck_section (taken : s.recheck cfg handle = some s') :
    Wrote cfg s (.recheck handle) s' ∧ Turn cfg s s' := by
  unfold Live.recheck at taken
  split at taken
  · rename_i client found
    cases taken
    refine ⟨Wrote.same rfl rfl, .same rfl rfl (.staged handle client _ _ found ?_ rfl ?_)⟩
    · cases found : s.state.chunks[handle]? with
      | none => exact nofun
      | some m =>
          by_cases valid : m.isValid cfg s.now = true
          · exact fun _ => .inr ⟨m, rfl, valid⟩
          · simp [valid, GrantStage.isUnder]
    · intro round attempt waiting
      split at waiting
      · cases waiting
      · cases waiting
  · cases taken

theorem prepare_section (taken : s.prepare cfg handle = some s') :
    Wrote cfg s (.prepare handle) s' ∧ Turn cfg s s' := by
  unfold Live.prepare at taken
  split at taken
  · rename_i client round grant
    split at taken
    · cases taken
      exact ⟨Wrote.same rfl rfl,
        .same rfl rfl (.staged handle client _ _ grant (fun _ => .inl rfl) rfl nofun)⟩
    · rename_i attempt m' prepared
      obtain ⟨m, found, prepared⟩ := Option.bind_eq_some_iff.mp prepared
      obtain ⟨rfl, _, group, _⟩ := ChunkMeta.prepareLocked_eq prepared
      have alive : ∀ server ∈ attempt.primary :: attempt.secondaries, s.resolves server = true :=
        fun server member => (List.mem_filter.mp ((group server).mp member)).2
      cases taken
      refine ⟨Wrote.setChunk found rfl rfl rfl rfl rfl (.of_lease rfl),
        .same rfl rfl (.staged handle client _ _ grant (fun _ => .inl rfl) rfl ?_)⟩
      rintro _ _ ⟨⟩
      exact alive
  · cases taken

theorem settle_section {failed : List ServerId} (taken : s.settle cfg handle failed = some s') :
    Wrote cfg s (.settle handle failed) s' ∧ Turn cfg s s' := by
  unfold Live.settle at taken
  split at taken
  · rename_i client round attempt grant
    split at taken
    · split at taken
      · cases taken
        exact ⟨Wrote.same rfl rfl, .same rfl rfl
          (.staged handle client _ _ grant (by simp [GrantStage.isUnder]) rfl nofun)⟩
      · rename_i m found
        split at taken
        · rename_i none
          obtain rfl := List.isEmpty_iff.mp none
          cases taken
          have tended : Tended s.state.chunks
              (s.state.chunks.insert handle (m.commit cfg s.now attempt))
              [.bumpVersion handle (max m.version attempt.version)] := by
            apply Tended.bump found
            · rfl
            · rfl
            · exact (Nat.max_eq_right (Nat.le_max_left _ _)).symm
          exact ⟨.committed grant found rfl ⟨rfl, rfl, tended, rfl⟩,
            .same rfl rfl (.staged handle client _ _ grant (by simp [GrantStage.isUnder]) rfl nofun)⟩
        · obtain ⟨_, _, same⟩ := ChunkMeta.foldl_removeLocation failed m
          rw [same] at taken
          cases taken
          refine ⟨Wrote.setChunk found rfl rfl rfl rfl rfl (.of_lease rfl),
            .same rfl rfl (.staged handle client _ _ grant (fun _ => .inl rfl) rfl ?_)⟩
          intro round attempt waiting
          split at waiting
          · cases waiting
          · cases waiting
    · cases taken
  · cases taken

theorem clear_section (taken : s.clear handle = some s') :
    Wrote cfg s (.clear handle) s' ∧ Turn cfg s s' := by
  unfold Live.clear at taken
  split at taken
  · rename_i client grant
    cases found : s.state.chunks[handle]? with
    | none =>
        simp only [found, Option.some.injEq] at taken
        subst taken
        exact ⟨Wrote.same rfl rfl, .same rfl rfl
          (.staged handle client _ _ grant (by simp [GrantStage.isUnder]) rfl nofun)⟩
    | some m =>
        simp only [found, Option.some.injEq] at taken
        subst taken
        exact ⟨Wrote.setChunk found rfl rfl rfl rfl rfl (.of_lease rfl),
          .same rfl rfl (.staged handle client _ _ grant (by simp [GrantStage.isUnder]) rfl nofun)⟩
  · cases taken

theorem endGrant_section (taken : s.endGrant handle = some s') :
    Wrote cfg s (.endGrant handle) s' ∧ Turn cfg s s' := by
  unfold Live.endGrant at taken
  split at taken
  · rename_i client ok seq grant
    split at taken
    · split at taken
      · rename_i id
        cases taken
        unfold Live.granted
        split
        · rename_i f call
          split
          · rename_i granting phase
            split
            · refine ⟨Wrote.same rfl rfl, .turned id _ _ call rfl
                (.finding rfl rfl (.granted phase ⟨handle, _, grant, rfl⟩)) rfl ?_⟩
              exact .closed handle rfl
            · exact ⟨Wrote.same rfl rfl, .ended id _ call
                (fun _ _ _ _ => ⟨handle, _, grant, rfl⟩) rfl rfl (.closed handle rfl)⟩
          · exact ⟨Wrote.same rfl rfl, .same rfl rfl (.closed handle rfl)⟩
        · exact ⟨Wrote.same rfl rfl, .same rfl rfl (.closed handle rfl)⟩
      · cases taken
        exact ⟨Wrote.same rfl rfl, .same rfl rfl (.closed handle rfl)⟩
    · cases taken
  · cases taken

theorem addChunk_section {index : Nat} (taken : s.addChunk id path index = some s') :
    Wrote cfg s (.addChunk id path index) s' ∧ Turn cfg s s' := by
  unfold Live.addChunk at taken
  split at taken
  · cases taken
    exact ⟨Wrote.same rfl rfl, .same rfl rfl (.same rfl)⟩
  · rename_i valid
    obtain ⟨fresh, free, rfl⟩ := begin_eq taken
    split
    · split
      · have proper : checkPath path = true := by simpa using valid
        exact ⟨Wrote.same rfl rfl,
          .begun id (.add path index .alloc) fresh free (.add proper) rfl rfl (.same rfl)⟩
      · exact ⟨Wrote.same rfl rfl, .same rfl rfl (.same rfl)⟩
    · exact ⟨Wrote.same rfl rfl, .same rfl rfl (.same rfl)⟩

theorem endAdd_section {ok : List ServerId} (taken : s.endAdd cfg id ok = some s') :
    Wrote cfg s (.endAdd id ok) s' ∧ Turn cfg s s' := by
  unfold Live.endAdd at taken
  split at taken
  · rename_i path index handle seq call
    split at taken
    · split at taken
      · cases taken
        exact ⟨.added call rfl rfl rfl, .turned id _ _ call rfl
          (.finishing rfl (fun _ other => nomatch other) fun _ other => nomatch other) rfl (.same rfl)⟩
      · rename_i few
        cases taken
        exact ⟨.abandoned call rfl rfl rfl rfl ⟨ok, .inr rfl, by simpa using few⟩,
          .ended id _ call (fun _ _ other => nomatch other) rfl rfl (.same rfl)⟩
    · cases taken
  · cases taken

theorem touch_section {server : ServerId} (taken : s.touch id server = some s') :
    Wrote cfg s (.touch id server) s' ∧ Turn cfg s s' := by
  obtain ⟨fresh, free, rfl⟩ := begin_eq taken
  have alive : ({ s with registry := s.registry.insert server ⟨s.now, true⟩ }.setCall id
      (.beat server s.now)).resolves server = true := by
    simp [Live.resolves, Live.setCall]
  exact ⟨Wrote.same rfl rfl, .begun id (.beat server s.now) fresh free (.beat alive) rfl rfl
    (.same rfl)⟩

theorem hear_section {req : HeartBeatRequest} (taken : s.hear cfg id req = some s') :
    Wrote cfg s (.hear id req) s' ∧ Turn cfg s s' := by
  unfold Live.hear at taken
  split at taken
  · rename_i server time call
    cases taken
    obtain ⟨records, logged, tended, quiet⟩ : Heard.Goes { chunks := s.state.chunks }
      (s.state.chunks.heartBeat cfg time server req) := heartBeat_goes req s.state.chunks
    have logged : (s.state.chunks.heartBeat cfg time server req).records = records := logged
    exact ⟨.heard ⟨rfl, rfl, logged ▸ tended, rfl⟩ quiet,
      .ended id _ call (fun _ _ other => nomatch other) rfl rfl (.same rfl)⟩
  · cases taken

theorem sweep_section (taken : s.sweep cfg id = some s') :
    Wrote cfg s (.sweep id) s' ∧ Turn cfg s s' := by
  obtain ⟨fresh, free, rfl⟩ := begin_eq taken
  exact ⟨Wrote.same rfl rfl, .begun id (.sweep _ _) fresh free .sweep rfl rfl (.same rfl)⟩

theorem sweepDead_section (taken : s.sweepDead cfg id = some s') :
    Wrote cfg s (.sweepDead id) s' ∧ Turn cfg s s' := by
  unfold Live.sweepDead at taken
  split at taken
  · rename_i time dead call
    cases taken
    have swept : Tended s.state.chunks (s.state.chunks.sweepDead cfg time dead).1 [] ∧
        AllQuiet s.state.chunks (s.state.chunks.sweepDead cfg time dead).1 := sweepDead_tended _ _
    exact ⟨.quiet ⟨rfl, rfl, swept.1, (List.append_nil _).symm⟩ swept.2,
      .ended id _ call (fun _ _ other => nomatch other) rfl rfl (.same rfl)⟩
  · cases taken

theorem gcPass_section {unixSeconds : Int} (taken : s.gcPass cfg id unixSeconds = some s') :
    Wrote cfg s (.gcPass id unixSeconds) s' ∧ Turn cfg s s' := by
  obtain ⟨fresh, free, rfl⟩ := begin_eq taken
  exact ⟨Wrote.same rfl rfl, .begun id (.gc _ _) fresh free .gc rfl rfl (.same rfl)⟩

theorem gcRemove_section (taken : s.gcRemove id = some s') :
    Wrote cfg s (.gcRemove id) s' ∧ Turn cfg s s' := by
  unfold Live.gcRemove at taken
  split at taken
  · rename_i path expired lastSeq call
    split at taken
    · rename_i free
      split at taken
      · rename_i there
        cases taken
        exact ⟨.removed free (Std.ExtTreeMap.contains_iff_mem.mp there)
          (.inr ⟨id, expired, lastSeq, rfl, call⟩) rfl rfl, .turned id _ _ call rfl .collecting rfl
            (.same rfl)⟩
      · cases taken
        exact ⟨Wrote.same rfl rfl, .turned id _ _ call rfl .collecting rfl
            (.same rfl)⟩
    · cases taken
  · cases taken

theorem gcDrop_section (taken : s.gcDrop id = some s') :
    Wrote cfg s (.gcDrop id) s' ∧ Turn cfg s s' := by
  unfold Live.gcDrop at taken
  split at taken
  · rename_i lastSeq call
    cases taken
    exact ⟨.dropped rfl rfl, .turned id _ _ call rfl (.finishing rfl (fun _ other => nomatch other)
          fun _ other => nomatch other) rfl (.same rfl)⟩
  · cases taken

theorem advance_section {passed : Duration} (taken : s.advance passed = some s') :
    Wrote cfg s (.advance passed) s' ∧ Turn cfg s s' := by
  unfold Live.advance at taken
  split at taken
  · cases taken
    exact ⟨Wrote.same rfl rfl, .same rfl rfl (.same rfl)⟩
  · cases taken

theorem flush_section {count : Nat} (taken : s.flush count = some s') :
    Wrote cfg s (.flush count) s' ∧ Turn cfg s s' := by
  unfold Live.flush at taken
  split at taken
  · cases taken
    exact ⟨Wrote.same rfl rfl, .same rfl rfl (.same rfl)⟩
  · cases taken

theorem done_section (taken : s.done id = some s') : Wrote cfg s (.done id) s' ∧ Turn cfg s s' := by
  unfold Live.done at taken
  split at taken
  · rename_i call
    split at taken
    · cases taken
      exact ⟨Wrote.same rfl rfl, .ended id _ call (fun _ _ other => nomatch other) rfl rfl (.same rfl)⟩
    · cases taken
  · cases taken

theorem restart_section {kept : Nat} (taken : s.restart kept = some s') :
    Wrote cfg s (.restart kept) s' ∧ Turn cfg s s' := by
  unfold Live.restart at taken
  split at taken
  · cases taken
    exact ⟨.restarted rfl rfl rfl rfl, .lost rfl rfl rfl⟩
  · cases taken

theorem act_section (taken : s.act cfg a = some s') : Wrote cfg s a s' ∧ Turn cfg s s' := by
  cases a with
  | create => exact create_section taken
  | remove => exact remove_section taken
  | move => exact move_section taken
  | revoke => exact revoke_section taken
  | revoked => exact revoked_section taken
  | finish => exact finish_section taken
  | findLeaseHolder => exact findLeaseHolder_section taken
  | attempt => exact attempt_section taken
  | copyOnWrite => exact copyOnWrite_section taken
  | alloc => exact alloc_section taken
  | endCopy => exact endCopy_section taken
  | copied => exact copied_section taken
  | decideLease => exact decideLease_section taken
  | wake => exact wake_section taken
  | grant => exact grant_section taken
  | respond => exact respond_section taken
  | requestRegrant => exact requestRegrant_section taken
  | regrant => exact regrant_section taken
  | recheck => exact recheck_section taken
  | prepare => exact prepare_section taken
  | settle => exact settle_section taken
  | clear => exact clear_section taken
  | endGrant => exact endGrant_section taken
  | addChunk => exact addChunk_section taken
  | endAdd => exact endAdd_section taken
  | touch => exact touch_section taken
  | hear => exact hear_section taken
  | sweep => exact sweep_section taken
  | sweepDead => exact sweepDead_section taken
  | gcPass => exact gcPass_section taken
  | gcRemove => exact gcRemove_section taken
  | gcDrop => exact gcDrop_section taken
  | advance => exact advance_section taken
  | flush => exact flush_section taken
  | done => exact done_section taken
  | restart => exact restart_section taken

end

end Live

/-! ## One call under a step -/

section
variable {cfg : Config} {s s' : Live} {id : Nat}

/-- The call was there before, or it has just begun, or it has taken the step. -/
theorem Turn.call (turn : Turn cfg s s') {task' : Task} (found : s'.calls[id]? = some task') :
    s.calls[id]? = some task' ∨
    (s.isFree task'.locks = true ∧ Begins s s' task' ∧
      ∀ other, other ≠ id → s'.calls[other]? = s.calls[other]?) ∨
    ∃ task, s.calls[id]? = some task ∧ Advances s s' id task task' ∧
      ∀ other, other ≠ id → s'.calls[other]? = s.calls[other]? := by
  have others : ∀ {id : Nat} {task : Task}, s'.calls = s.calls.insert id task →
      ∀ other, other ≠ id → s'.calls[other]? = s.calls[other]? := by
    intro id task calls other different
    rw [calls, getElem?_insert, if_neg (Ne.symm different)]
  have erased : ∀ {gone : Nat}, s'.calls = s.calls.erase gone → s.calls[id]? = some task' := by
    intro gone calls
    rw [calls, getElem?_erase] at found
    split at found
    · cases found
    · exact found
  cases turn with
  | same calls => exact .inl (calls ▸ found)
  | begun new task fresh free begins calls =>
      have here := found
      rw [calls, getElem?_insert] at here
      split at here
      · rename_i same
        subst same
        cases here
        exact .inr (.inl ⟨free, begins, others calls⟩)
      · exact .inl here
  | turned old task task'' there calls advances =>
      have here := found
      rw [calls, getElem?_insert] at here
      split at here
      · rename_i same
        subst same
        cases here
        exact .inr (.inr ⟨task, there, advances, others calls⟩)
      · exact .inl here
  | ended gone task there idle calls => exact .inl (erased calls)
  | answered gone f handle there phase calls => exact .inl (erased calls)
  | lost calls =>
      rw [calls] at found
      simp at found

theorem Turn.grants (turn : Turn cfg s s') : Grants cfg s s' := by
  cases turn with
  | lost calls answer grants => exact .lost grants
  | _ => assumption

end

end Gfs.Master
