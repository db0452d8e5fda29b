import Gfs.Master.Counts

/-!
# Where a `FindLeaseHolder` has its chunk

What a call read stays true under its read lock: its file stays, and a chunk of its file that is in
no other position gets into none. Only a `CopyOnWrite` by another call for the same position takes
the chunk away, and then the chunk is in no file any more.
-/

namespace Gfs.Master
open Lib.Maps Lib.Transition LockTable ChunkTable

/-! ## References of one chunk under the operations -/

namespace MasterState
variable {s : MasterState} {path source target : Str} {index : Nat} {handle other : Handle}

theorem references_applyReplaceChunk_le :
    references (s.applyReplaceChunk path index handle).files other ≤
      references s.files other + if handle = other then 1 else 0 := by
  unfold applyReplaceChunk
  split
  · exact Nat.le_add_right _ _
  · rename_i file found
    split
    · exact Nat.le_add_right _ _
    · rename_i old there
      split
      · exact Nat.le_add_right _ _
      · have moved : _ = references s.files other + if handle = other then 1 else 0 :=
          references_set found there
        exact Nat.le_of_add_right_le (Nat.le_of_eq moved)

theorem references_applyAddChunk_le :
    references (s.applyAddChunk path index handle).files other ≤
      references s.files other + if handle = other then 1 else 0 := by
  unfold applyAddChunk
  split
  · exact Nat.le_add_right _ _
  · rename_i file found
    split
    · split
      · exact Nat.le_add_right _ _
      · exact references_applyReplaceChunk_le
    · split
      · exact Nat.le_add_right _ _
      · have changed : references (s.files.insert path { chunks := file.chunks ++ [handle] }) other +
            file.chunks.count other = references s.files other +
              (file.chunks ++ [handle]).count other := references_insert found
        rw [List.count_append, List.count_singleton] at changed
        simp only [beq_iff_eq] at changed
        show references (s.files.insert path { chunks := file.chunks ++ [handle] }) other ≤ _
        omega

theorem references_applyRemove_le :
    references (s.applyRemove path).files handle ≤ references s.files handle := by
  unfold applyRemove
  split
  · exact Nat.le_refl _
  · rename_i file found
    rw [references_erase found]
    exact Nat.le_add_right _ _

theorem references_applyRename (source' : source ≠ ['/']) (target' : target ≠ ['/'])
    (free : s.files.Free target) :
    references (s.applyRename source target).files handle = references s.files handle := by
  unfold applyRename
  split
  · rfl
  · exact references_rename source' target' free

/-- A snapshot leaves alone the references to a chunk that no visible file below the source has. -/
theorem references_applySnapshot (source' : source ≠ ['/'])
    (elsewhere : ∀ (p : Str) file, s.files[p]? = some file → isAncestorOrSelf source p = true →
      isHiddenPath p = false → handle ∉ file.chunks) :
    references (s.applySnapshot source target).files handle = references s.files handle := by
  have listed : ∀ entry ∈ s.files.subtree source true, handle ∉ entry.2.chunks := by
    rintro ⟨p, file⟩ member
    have there := (Namespace.mem_subtree source').mp member
    exact elsewhere p file there.1 there.2.1 (there.2.2 rfl)
  clear elsewhere
  unfold applySnapshot
  generalize s.files.subtree source true = entries at listed
  induction entries generalizing s with
  | nil => rfl
  | cons entry entries ih =>
      have one : references (s.copyFile source target entry).files handle =
          references s.files handle := by
        unfold copyFile
        dsimp only
        split
        · rfl
        · rename_i absent
          rw [references_add, List.count_eq_zero.mpr (listed entry List.mem_cons_self), Nat.add_zero]
          exact Std.ExtTreeMap.getElem?_eq_none fun there =>
            absent (Std.ExtTreeMap.contains_iff_mem.mpr there)
      exact (ih fun later member => listed later (List.mem_cons_of_mem _ member)).trans one

end MasterState

/-! ## What a call has read -/

namespace Live

/-- The position holds the chunk, and no other position does. -/
def Sole (s : Live) (f : Find) (handle : Handle) : Prop :=
  s.position f.path f.index = some handle ∧ references s.state.files handle = 1

/-- The call goes on with a chunk that was in no other position; the chunk may have been replaced. -/
structure Decided (s : Live) (f : Find) (handle : Handle) : Prop where
  below : handle < s.state.nextHandle
  standing : s.state.chunks.standing handle ≠ some true
  few : references s.state.files handle = 0 ∨ s.Sole f handle

def Holds (s : Live) (f : Find) : Prop :=
  match f.phase with
  | .attempt | .parked _ => True
  | .copyOnWrite old => ∃ handle, s.position f.path f.index = some handle ∧
      (handle = old ∨ references s.state.files handle = 1)
  | .alloc old _ | .copying old .. => s.position f.path f.index = some old
  | .copied handle _ => s.Sole f handle
  | .decide handle | .queued handle | .granting handle | .granted handle => s.Decided f handle

structure Placed (s : Live) : Prop where
  paths : ∀ (id : Nat) f, s.calls[id]? = some (.find f) → Proper f.path
  cow : ∀ (i j : Nat) task task', s.calls[i]? = some task → s.calls[j]? = some task' →
    task.holdsCow = true → task'.holdsCow = true → i = j
  adds : ∀ (id : Nat) path index phase, s.calls[id]? = some (.add path index phase) → Proper path
  finds : ∀ (id : Nat) f, s.calls[id]? = some (.find f) → s.Holds f

structure Onward (s s' : Live) : Prop where
  next : s.state.nextHandle ≤ s'.state.nextHandle
  standing : ∀ handle, handle < s.state.nextHandle → s.state.chunks.standing handle ≠ some true →
    s'.state.chunks.standing handle ≠ some true

/-- What a section leaves alone at a path that is locked for reading. -/
structure Steady (s s' : Live) (path : Str) : Prop extends Onward s s' where
  file : ∀ file, s.state.files[path]? = some file → s'.state.files[path]? = some file
  few : ∀ handle, s.state.chunks.standing handle ≠ some true →
    (references s.state.files handle = 0 ∨ references s.state.files handle = 1 ∧
      ∃ index, s.position path index = some handle) →
    references s'.state.files handle ≤ references s.state.files handle

section
variable {cfg : Config} {s s' : Live} {a : Action} {id : Nat} {f : Find} {handle : Handle}
  {path : Str} {index : Nat} {phase : FindPhase}

theorem position_eq : s.position path index = some handle ↔
    ∃ file, s.state.files[path]? = some file ∧ file.chunks[index]? = some handle :=
  Option.bind_eq_some_iff

theorem position_pos (position : s.position path index = some handle) :
    0 < references s.state.files handle := by
  obtain ⟨file, found, there⟩ := position_eq.mp position
  exact references_pos found (List.mem_of_getElem? there)

theorem Steady.position (steady : Steady s s' path)
    (position : s.position path index = some handle) : s'.position path index = some handle := by
  obtain ⟨file, found, there⟩ := position_eq.mp position
  exact position_eq.mpr ⟨file, steady.file file found, there⟩

theorem Steady.sole (steady : Steady s s' f.path) (sole : s.Sole f handle)
    (standing : s.state.chunks.standing handle ≠ some true) : s'.Sole f handle := by
  have there := steady.position sole.1
  refine ⟨there, Nat.le_antisymm ?_ (position_pos there)⟩
  rw [← sole.2]
  exact steady.few handle standing (.inr ⟨sole.2, f.index, sole.1⟩)

theorem Steady.decided (steady : Steady s s' f.path) (decided : s.Decided f handle) :
    s'.Decided f handle := by
  refine ⟨Nat.lt_of_lt_of_le decided.below steady.next,
    steady.standing handle decided.below decided.standing, ?_⟩
  rcases decided.few with none | sole
  · left
    have few := steady.few handle decided.standing (.inl none)
    rw [none] at few
    exact Nat.le_zero.mp few
  · exact .inr (steady.sole sole decided.standing)

theorem Accounted.standing_position (accounted : Accounted s)
    (position : s.position path index = some handle) :
    s.state.chunks.standing handle = some false :=
  accounted.fits.backed handle (position_pos position)

theorem Accounted.below_position (accounted : Accounted s)
    (position : s.position path index = some handle) : handle < s.state.nextHandle :=
  accounted.fits.below handle (by rw [accounted.standing_position position]; exact nofun)

theorem Accounted.decided (accounted : Accounted s) (sole : s.Sole f handle) :
    s.Decided f handle := by
  refine ⟨accounted.below_position sole.1, ?_, .inr sole⟩
  rw [accounted.standing_position sole.1]
  exact nofun

theorem Steady.holds (accounted : Accounted s) (steady : Steady s s' f.path) (holds : s.Holds f) :
    s'.Holds f := by
  obtain ⟨path, index, phase⟩ := f
  have shown : ∀ {handle}, s.position path index = some handle →
      s.state.chunks.standing handle ≠ some true := by
    intro handle position
    rw [accounted.standing_position position]
    exact nofun
  cases phase with
  | attempt => trivial
  | parked => trivial
  | copyOnWrite old =>
      obtain ⟨handle, position, few⟩ := holds
      exact ⟨handle, steady.position position, few.imp_right fun one =>
        (steady.sole ⟨position, one⟩ (shown position)).2⟩
  | alloc => exact steady.position holds
  | copying => exact steady.position holds
  | copied => exact steady.sole holds (shown holds.1)
  | decide => exact steady.decided holds
  | queued => exact steady.decided holds
  | granting => exact steady.decided holds
  | granted => exact steady.decided holds

theorem Holds.next (accounted : Accounted s) (holds : s.Holds f)
    (next : FindStep s s' id f phase) (notCopied : ∀ handle seq, phase ≠ .copied handle seq) :
    s.Holds { f with phase } := by
  obtain ⟨path, index, phase⟩ := f
  have unshared : ∀ {handle m phase}, s.position path index = some handle →
      s.state.chunks[handle]? = some m → m.refcount ≤ 1 →
      s.Decided ⟨path, index, phase⟩ handle := by
    intro handle m phase position found count
    refine accounted.decided ⟨position, ?_⟩
    have positive := position_pos position
    rw [accounted.counted.exact handle m found] at count
    omega
  cases next with
  | unshared phase position found count => exact unshared position found count
  | shared phase position => exact ⟨_, position, .inl rfl⟩
  | moved phase position different =>
      cases phase
      obtain ⟨handle, position', few⟩ := holds
      obtain rfl := Option.some.inj (position.symm.trans position')
      exact accounted.decided ⟨position, few.resolve_left different⟩
  | sole phase position found count => exact unshared position found count
  | copy phase position free => exact position
  | allocated phase state =>
      cases phase
      exact holds
  | replaced => exact absurd rfl (notCopied _ _)
  | copied phase =>
      cases phase
      exact accounted.decided holds
  | parked => trivial
  | woken => trivial
  | queued phase =>
      cases phase
      exact ⟨holds.below, holds.standing, holds.few⟩
  | granting phase =>
      cases phase
      exact ⟨holds.below, holds.standing, holds.few⟩
  | granted phase =>
      cases phase
      exact ⟨holds.below, holds.standing, holds.few⟩

theorem files_replaced {old fresh : Handle} {ok : List ServerId} (accounted : Accounted s)
    (position : s.position path index = some old)
    (pending : s.state.chunks.standing fresh = some true)
    (state : s'.state = (s.located fresh ok).applyReplaceChunk path index fresh) :
    ∃ file, s.state.files[path]? = some file ∧ file.chunks[index]? = some old ∧
      s'.state.files = s.state.files.insert path { chunks := file.chunks.set index fresh } ∧
      ∀ other, references s'.state.files other + (if old = other then 1 else 0) =
        references s.state.files other + if fresh = other then 1 else 0 := by
  obtain ⟨file, found, there⟩ := position_eq.mp position
  have different : old ≠ fresh := by
    rintro rfl
    rw [accounted.standing_position position] at pending
    cases pending
  have files : s'.state.files =
      s.state.files.insert path { chunks := file.chunks.set index fresh } := by
    have found' : (s.located fresh ok).files[path]? = some file := found
    rw [state, MasterState.applyReplaceChunk, found']
    dsimp only
    rw [there]
    dsimp only
    rw [if_neg different]
    rfl
  exact ⟨file, found, there, files, fun other => files ▸ references_set found there⟩

theorem sole_replaced {old fresh : Handle} {holders ok : List ServerId} {seq : Nat}
    (accounted : Accounted s) (call : s.calls[id]? = some (.find f))
    (phase : f.phase = .copying old fresh holders seq) (holds : s.Holds f)
    (state : s'.state = (s.located fresh ok).applyReplaceChunk f.path f.index fresh) :
    s'.Sole f fresh := by
  obtain ⟨path, index, _⟩ := f
  cases phase
  have position : s.position path index = some old := holds
  have pending := accounted.creating id _ fresh call rfl
  obtain ⟨file, found, there, files, moved⟩ := files_replaced accounted position pending state
  obtain ⟨inside, _⟩ := List.getElem?_eq_some_iff.mp there
  have position' : s'.position path index = some fresh := by
    refine position_eq.mpr ⟨_, ?_, List.getElem?_set_self inside⟩
    rw [files, getElem?_insert, if_pos rfl]
  have zero : references s.state.files fresh = 0 :=
    accounted.fits.unreferenced (by rw [pending]; exact nofun)
  have count := moved fresh
  rw [zero, if_pos rfl, if_neg] at count
  · exact ⟨position', count⟩
  · rintro rfl
    rw [accounted.standing_position position] at pending
    cases pending

/-! ## The invariant -/

theorem cow_of_turn (turn : Turn cfg s s') {task' : Task} (found : s'.calls[id]? = some task')
    (holds : task'.holdsCow = true) :
    (∃ task, s.calls[id]? = some task ∧ task.holdsCow = true) ∨
    (∀ (other : Nat) task, s.calls[other]? = some task → task.holdsCow = false) ∧
      ∀ other, other ≠ id → s'.calls[other]? = s.calls[other]? := by
  rcases turn.call found with old | ⟨_, begins, _⟩ | ⟨before, there, advances, others⟩
  · exact .inl ⟨task', old, holds⟩
  · cases begins <;> cases holds
  · cases advances with
    | moving | finishing | collecting | adding => cases holds
    | @finding f f' path index next =>
        obtain ⟨path, index, phase⟩ := f
        cases f'
        dsimp only at next
        cases next with
        | copy phase position free => exact .inr ⟨free, others⟩
        | allocated phase => cases phase; exact .inl ⟨_, there, rfl⟩
        | replaced phase => cases phase; exact .inl ⟨_, there, rfl⟩
        | _ => cases holds

theorem Placed.cow_turn (placed : Placed s) (turn : Turn cfg s s') (i j : Nat) (task task' : Task)
    (found : s'.calls[i]? = some task) (found' : s'.calls[j]? = some task')
    (holds : task.holdsCow = true) (holds' : task'.holdsCow = true) : i = j := by
  rcases cow_of_turn turn found holds with ⟨old, there, before⟩ | ⟨free, others⟩
  · rcases cow_of_turn turn found' holds' with ⟨old', there', before'⟩ | ⟨free, others⟩
    · exact placed.cow i j old old' there there' before before'
    · rw [free i old there] at before
      cases before
  · by_contra different
    rw [others j (Ne.symm different)] at found'
    rw [free j task' found'] at holds'
    cases holds'

theorem finds_of_turn (turn : Turn cfg s s') (found : s'.calls[id]? = some (.find f)) :
    (∃ before, s.calls[id]? = some (.find before) ∧ before.path = f.path ∧ before.index = f.index ∧
      (before = f ∨ FindStep s s' id before f.phase)) ∨
    Proper f.path ∧ f.phase = .attempt := by
  rcases turn.call found with old | ⟨_, begins, _⟩ | ⟨before, there, advances, _⟩
  · exact .inl ⟨f, old, rfl, rfl, .inl rfl⟩
  · cases begins with
    | find valid => exact .inr ⟨checkPath_proper valid, rfl⟩
  · cases advances with
    | finding path index next => exact .inl ⟨_, there, path.symm, index.symm, .inr next⟩

theorem Placed.adds_turn (placed : Placed s) (turn : Turn cfg s s') (id : Nat) (path : Str)
    (index : Nat) (phase : AddPhase) (found : s'.calls[id]? = some (.add path index phase)) :
    Proper path := by
  rcases turn.call found with old | ⟨_, begins, _⟩ | ⟨before, there, advances, _⟩
  · exact placed.adds id path index phase old
  · cases begins with
    | add valid => exact checkPath_proper valid
  · cases advances with
    | adding state => exact placed.adds id path index .alloc there

theorem Placed.steady (placed : Placed s) (accounted : Accounted s) (turn : Turn cfg s s')
    (steady : ∀ (id : Nat) f, s.calls[id]? = some (.find f) → Steady s s' f.path) :
    Placed s' := by
  refine ⟨fun id f found => ?_, placed.cow_turn turn, placed.adds_turn turn, fun id f found => ?_⟩
  · rcases finds_of_turn turn found with ⟨before, there, path, _⟩ | ⟨proper, _⟩
    · rw [← path]
      exact placed.paths id before there
    · exact proper
  · rcases finds_of_turn turn found with ⟨before, there, path, index, next⟩ | ⟨_, phase⟩
    · have still := steady id before there
      have holds := placed.finds id before there
      rcases next with rfl | next
      · exact still.holds accounted holds
      · obtain ⟨_, _, phase⟩ := f
        dsimp only at path index next
        subst path index
        by_cases copied : ∃ handle seq, phase = .copied handle seq
        · obtain ⟨handle, seq, rfl⟩ := copied
          cases next with
          | replaced phase state =>
              have sole := sole_replaced accounted there phase holds state
              exact sole
        · have next := holds.next accounted next fun handle seq same => copied ⟨handle, seq, same⟩
          exact still.holds (f := { before with phase }) accounted next
    · unfold Holds
      rw [phase]
      trivial

/-! ## Under the read lock -/

/-- A write lock of another call is not at or above the path of the call. -/
theorem outside_of_owns {locks : List LockRequest} (path' : Proper f.path) (proper : Proper path)
    (owns : Owns locks path) (free : compatible (Task.find f).locks locks = true) :
    isAncestorOrSelf path f.path = false := by
  rw [compatible_comm] at free
  exact owns.not_below free (reaches_forPath path'.notRoot) proper.nonempty

theorem Onward.of_same (nextHandle : s'.state.nextHandle = s.state.nextHandle)
    (same : ∀ handle, s'.state.chunks.standing handle = s.state.chunks.standing handle) :
    Onward s s' := by
  refine ⟨Nat.le_of_eq nextHandle.symm, fun handle _ shown => ?_⟩
  rw [same]
  exact shown

theorem Onward.kept {records : List LogRecord} (kept : Kept s s' records) : Onward s s' :=
  .of_same kept.nextHandle fun _ => standing_tended kept.chunks

theorem Onward.given (accounted : Accounted s) {ok : List ServerId} {task : Task}
    (call : s.calls[id]? = some task) (creating : task.creating = some handle)
    (gives : MasterState.Gives (s.located handle ok) s'.state handle) : Onward s s' := by
  have pending := accounted.creating id task handle call creating
  have below := accounted.fits.below handle (by rw [pending]; exact nofun)
  refine ⟨Nat.le_of_eq (gives.nextHandle below accounted.fits.next).symm, fun h _ shown => ?_⟩
  rcases gives.standing h with same | ⟨_, given⟩
  · rw [same]
    exact fun there => shown ((standing_tended addLocations_tended).symm.trans there)
  · rw [given]
    exact nofun

theorem mild_addLocations {chunks : ChunkTable} {ok : List ServerId} {t : TimePoint} :
    Mild chunks (addLocations chunks handle ok t) :=
  Mild.foldl (fun _ server => Mild.modify (f := (·.addLocation server t)) (fun _ => rfl)
    (fun _ => rfl) fun _ => .of_lease rfl) ok

theorem mild_resetInvalid {chunks : ChunkTable} {now : TimePoint} {handles : List Handle} :
    Mild chunks (handles.foldl (resetInvalid cfg now) chunks) := by
  refine Mild.foldl (fun _ _ => Mild.modify (fun m => ?_) (fun m => ?_) fun m => ?_) handles
  · split <;> rfl
  · split <;> rfl
  · split
    · exact .of_none rfl
    · exact .refl

theorem mild_rename {t : MasterState} {source target : Str} :
    Mild t.chunks (t.applyRename source target).chunks := by
  rw [Mirrors.chunks_applyRename]
  exact .refl

theorem Accounted.onward (accounted : Accounted s) (wrote : Wrote cfg s a s') :
    Onward s s' ∨ s'.calls = ∅ ∧ s'.grants = ∅ := by
  cases wrote with
  | restarted calls state log grants => exact .inr ⟨calls, grants⟩
  | quiet kept leases => exact .inl (.kept kept)
  | heard kept leases => exact .inl (.kept kept)
  | committed grant found chunks kept => exact .inl (.kept kept)
  | created valid free isOpen state log =>
      exact .inl (.of_same (by rw [state]; rfl) fun _ => by rw [state]; rfl)
  | hidden valid free there shown state log =>
      refine .inl (.of_same ?_ fun _ => ?_)
      · rw [state, Mirrors.nextHandle_applyRename]
      · rw [state, Mirrors.chunks_applyRename]
  | removed free there isRemoval state log =>
      refine .inl (.of_same ?_ fun _ => ?_)
      · rw [state, Mirrors.nextHandle_applyRemove]
      · rw [state, Mirrors.standing_applyRemove]
  | renamed call kind ready calls state log =>
      refine .inl (.of_same ?_ fun _ => ?_)
      · rw [state, Mirrors.nextHandle_applyRename]
      · rw [state, Mirrors.chunks_applyRename]
  | snapshotted call kind ready waited calls state log =>
      refine .inl (.of_same ?_ fun _ => ?_)
      · rw [state, Mirrors.nextHandle_applySnapshot]
      · rw [state, Mirrors.standing_applySnapshot]
        exact standing_tended resetInvalid_tended
  | allocated call fresh none calls state log =>
      refine .inl ⟨?_, fun handle below shown => ?_⟩
      · rw [state]
        exact Nat.le_max_left _ _
      · rw [state, standing_allocHandle, if_neg (Nat.ne_of_gt below)]
        exact shown
  | @replaced _ ok _ _ fresh _ _ _ call phase calls state log =>
      have gives : MasterState.Gives (s.located fresh ok) s'.state fresh := by
        rw [state]
        exact MasterState.gives_applyReplaceChunk
      exact .inl (.given accounted call (creating_find phase) gives)
  | @added _ ok _ _ fresh _ _ call calls state log =>
      have gives : MasterState.Gives (s.located fresh ok) s'.state fresh := by
        rw [state]
        exact MasterState.gives_applyAddChunk
      exact .inl (.given accounted call rfl gives)
  | abandoned call creating calls state log =>
      refine .inl ⟨by rw [state]; exact Nat.le_refl _, fun handle below shown pending => ?_⟩
      rw [state] at pending
      have erased := standing_erase.symm.trans pending
      split at erased
      · cases erased
      · exact shown erased
  | dropped state log =>
      refine .inl ⟨by rw [state, MasterState.nextHandle_drops], fun handle below shown => ?_⟩
      rw [state]
      rw [standing_drops]
      split
      · exact nofun
      · exact shown

theorem Steady.of_files (onward : Onward s s') (files : s'.state.files = s.state.files) :
    Steady s s' path :=
  ⟨onward, fun _ found => files ▸ found, fun _ _ _ => files ▸ Nat.le_refl _⟩

theorem Placed.outside_move (placed : Placed s) (named : Named s) {id' : Nat} {m : Move}
    (call : s.calls[id]? = some (.move m)) (call' : s.calls[id']? = some (.find f)) :
    isAncestorOrSelf m.source f.path = false ∧ isAncestorOrSelf m.target f.path = false := by
  have valid := named.moves id m call
  have different : id' ≠ id := by
    rintro rfl
    exact nomatch call.symm.trans call'
  have free := named.locked id' id _ _ different call' call
  obtain ⟨source, target⟩ := owns_forPaths valid.properSource.notRoot valid.properTarget.notRoot
  have path' := placed.paths id' f call'
  exact ⟨outside_of_owns path' valid.properSource source free,
    outside_of_owns path' valid.properTarget target free⟩

theorem Steady.within {paths : List Str} (onward : Onward s s')
    (within : Namespace.Within paths s.state.files s'.state.files)
    (outside : path ∈ s.state.files → ∀ p ∈ paths, isAncestorOrSelf p path = false)
    (few : ∀ handle, s.state.chunks.standing handle ≠ some true →
      (references s.state.files handle = 0 ∨ references s.state.files handle = 1 ∧
        ∃ index, s.position path index = some handle) →
      references s'.state.files handle ≤ references s.state.files handle) : Steady s s' path := by
  refine ⟨onward, fun file found => ?_, few⟩
  rw [within path (outside (Namespace.mem_iff.mpr ⟨file, found⟩))]
  exact found

theorem position_replaced {file : FileMeta} {fresh : Handle} {p : Str} {i : Nat}
    (found : s.state.files[path]? = some file) (inside : index < file.chunks.length)
    (files : s'.state.files = s.state.files.insert path { chunks := file.chunks.set index fresh }) :
    s'.position p i = if path = p ∧ index = i then some fresh else s.position p i := by
  rw [position, files, getElem?_insert, position]
  by_cases same : path = p
  · subst same
    rw [if_pos rfl, found]
    by_cases here : index = i
    · subst here
      rw [if_pos ⟨rfl, rfl⟩]
      exact List.getElem?_set_self inside
    · rw [if_neg fun both => here both.2]
      exact List.getElem?_set_ne here
  · rw [if_neg same, if_neg fun both => same both.1]

theorem Placed.replaced (placed : Placed s) (accounted : Accounted s) (turn : Turn cfg s s')
    {ok holders : List ServerId} {old fresh : Handle} {seq : Nat}
    (call : s.calls[id]? = some (.find f)) (phase : f.phase = .copying old fresh holders seq)
    (calls : s'.calls = s.calls.insert id (.find { f with phase := .copied fresh s'.seq }))
    (state : s'.state = (s.located fresh ok).applyReplaceChunk f.path f.index fresh) :
    Placed s' := by
  have holds := placed.finds id f call
  have sole := sole_replaced accounted call phase holds state
  have pending := accounted.creating id _ fresh call (creating_find phase)
  have cow : (Task.find f).holdsCow = true := by
    simp [Task.holdsCow, phase]
  have position : s.position f.path f.index = some old := by
    obtain ⟨path, index, _⟩ := f
    cases phase
    exact holds
  obtain ⟨file, found, there, files, moved⟩ := files_replaced accounted position pending state
  obtain ⟨inside, _⟩ := List.getElem?_eq_some_iff.mp there
  have positions := fun p i => position_replaced (p := p) (i := i) found inside files
  have gives : MasterState.Gives (s.located fresh ok) s'.state fresh := by
    rw [state]
    exact MasterState.gives_applyReplaceChunk
  have nextHandle : s'.state.nextHandle = s.state.nextHandle :=
    gives.nextHandle (accounted.fits.below fresh (by rw [pending]; exact nofun)) accounted.fits.next
  have shown : ∀ {handle}, s.state.chunks.standing handle ≠ some true → fresh ≠ handle := by
    rintro _ shown rfl
    exact shown pending
  have few : ∀ {handle}, s.state.chunks.standing handle ≠ some true →
      references s'.state.files handle ≤ references s.state.files handle := by
    intro handle standing
    have count := moved handle
    rw [if_neg (shown standing)] at count
    omega
  have still : ∀ {g : Find} {handle}, ¬ (f.path = g.path ∧ f.index = g.index) → s.Sole g handle →
      s'.Sole g handle := by
    intro g handle elsewhere before
    have position' : s'.position g.path g.index = some handle := by
      rw [positions, if_neg elsewhere]
      exact before.1
    refine ⟨position', Nat.le_antisymm ?_ (position_pos position')⟩
    rw [← before.2]
    exact few (by rw [accounted.standing_position before.1]; exact nofun)
  refine ⟨fun i g found' => ?_, placed.cow_turn turn, placed.adds_turn turn, fun i g found' => ?_⟩
  · rw [calls, getElem?_insert] at found'
    split at found'
    · cases found'
      exact placed.paths id f call
    · exact placed.paths i g found'
  rw [calls, getElem?_insert] at found'
  split at found'
  · cases found'
    exact sole
  rename_i different
  have before := placed.finds i g found'
  have alone : (Task.find g).holdsCow = false := by
    by_contra holdsCow
    exact different (placed.cow id i _ _ call found' cow (by simpa using holdsCow))
  have decided : ∀ {handle}, s.Decided g handle → s'.Decided g handle := by
    intro handle decided
    refine ⟨nextHandle ▸ decided.below, ?_, ?_⟩
    · rcases gives.standing handle with same | ⟨_, given⟩
      · rw [same]
        exact fun pending => decided.standing
          ((standing_tended addLocations_tended).symm.trans pending)
      · rw [given]
        exact nofun
    · rcases decided.few with none | sole
      · left
        have few := few decided.standing
        rw [none] at few
        exact Nat.le_zero.mp few
      · by_cases here : f.path = g.path ∧ f.index = g.index
        · have same : old = handle := by
            refine Option.some.inj (position.symm.trans ?_)
            rw [here.1, here.2]
            exact sole.1
          have count := moved handle
          rw [if_pos same, if_neg (shown decided.standing), sole.2] at count
          exact .inl (Nat.succ.inj count)
        · exact .inr (still here sole)
  obtain ⟨path, index, phase⟩ := g
  cases phase with
  | attempt => trivial
  | parked => trivial
  | copyOnWrite other =>
      obtain ⟨handle, position', few⟩ := before
      by_cases here : f.path = path ∧ f.index = index
      · obtain ⟨rfl, rfl⟩ := here
        exact ⟨fresh, sole.1, .inr sole.2⟩
      · refine ⟨handle, ?_, few.imp_right fun one => ?_⟩
        · rw [positions, if_neg here]
          exact position'
        · exact (still (g := ⟨path, index, .attempt⟩) here ⟨position', one⟩).2
  | alloc => cases alone
  | copying => cases alone
  | copied => cases alone
  | decide => exact decided before
  | queued => exact decided before
  | granting => exact decided before
  | granted => exact decided before

theorem Placed.steady_or (named : Named s) (accounted : Accounted s) (placed : Placed s)
    (allowed : orderly s a = true) (wrote : Wrote cfg s a s') :
    (∀ (id : Nat) f, s.calls[id]? = some (.find f) → Steady s s' f.path) ∨
    (∃ id ok f old fresh holders seq, a = .endCopy id ok ∧ enough cfg ok = true ∧
      s.calls[id]? = some (.find f) ∧ f.phase = .copying old fresh holders seq ∧
      s'.calls = s.calls.insert id (.find { f with phase := .copied fresh s'.seq }) ∧
      s'.state = (s.located fresh ok).applyReplaceChunk f.path f.index fresh) ∨
    s'.calls = ∅ := by
  rw [orderly, Bool.and_eq_true] at allowed
  have tree := named.tree_now
  rcases accounted.onward wrote with onward | ⟨gone, _⟩
  case inr => exact .inr (.inr gone)
  cases wrote with
  | quiet kept leases => exact .inl fun _ _ _ => .of_files onward kept.files
  | heard kept leases => exact .inl fun _ _ _ => .of_files onward kept.files
  | committed grant found chunks kept => exact .inl fun _ _ _ => .of_files onward kept.files
  | allocated call fresh none calls state log =>
      exact .inl fun _ _ _ => .of_files onward (by rw [state]; rfl)
  | abandoned call creating calls state log =>
      exact .inl fun _ _ _ => .of_files onward (by rw [state]; rfl)
  | dropped state log => exact .inl fun _ _ _ => .of_files onward (by rw [state, MasterState.files_drops])
  | restarted calls state log => exact .inr (.inr calls)
  | @created id path _ valid free isOpen state log =>
      have path' := checkPath_proper valid
      have files : s'.state.files = s.state.files.insertIfNew path {} := by
        rw [state]
        rfl
      have within : Namespace.Within [path] s.state.files s'.state.files :=
        files ▸ Namespace.within_create
      refine .inl fun other f call =>
        .within onward within (fun _ p member => ?_) fun handle _ _ => ?_
      · obtain rfl := List.mem_singleton.mp member
        exact outside_of_owns (placed.paths other f call) path' (owns_forPath path'.notRoot)
          (isFree_iff.mp free other _ call)
      · rw [files, references_create]
  | @hidden id path unixSeconds _ valid free there shown state log =>
      obtain ⟨hidden', free', _⟩ := named.hidden allowed.1 valid free there shown
      have path' := tree.proper path there
      have within : Namespace.Within [path, s.state.files.freshHiddenName path unixSeconds]
          s.state.files s'.state.files := by
        rw [state, files_applyRename _ there]
        exact Namespace.within_rename path'.notRoot hidden'.notRoot free'
      refine .inl fun other f call =>
        .within onward within (fun inFiles p member => ?_) fun handle _ _ => ?_
      · rcases List.mem_cons.mp member with rfl | member
        · exact outside_of_owns (placed.paths other f call) path' (owns_forPath path'.notRoot)
            (isFree_iff.mp free other _ call)
        · obtain rfl := List.mem_singleton.mp member
          exact (free' f.path inFiles).1
      · rw [state, MasterState.references_applyRename path'.notRoot hidden'.notRoot free']
  | @removed _ path _ free there isRemoval state log =>
      have path' := tree.proper path there
      have within : Namespace.Within [path] s.state.files s'.state.files := by
        obtain ⟨file, found⟩ := Namespace.mem_iff.mp there
        rw [state, MasterState.applyRemove, found]
        exact Namespace.within_erase
      refine .inl fun other f call =>
        .within onward within (fun _ p member => ?_) fun handle _ _ => ?_
      · obtain rfl := List.mem_singleton.mp member
        exact outside_of_owns (placed.paths other f call) path' (owns_forPath path'.notRoot)
          (isFree_iff.mp free other _ call)
      · rw [state]
        exact MasterState.references_applyRemove_le
  | @renamed id m _ call kind ready calls state log =>
      have valid := named.moves id m call
      have within : Namespace.Within [m.source, m.target] s.state.files s'.state.files := by
        rw [state, named.renamed call]
        exact Namespace.within_rename valid.properSource.notRoot valid.properTarget.notRoot valid.free
      refine .inl fun other f call' =>
        .within onward within (fun inFiles p member => ?_) fun handle _ _ => ?_
      · obtain ⟨source, target⟩ := placed.outside_move named call call'
        rcases List.mem_cons.mp member with rfl | member
        · exact source
        · obtain rfl := List.mem_singleton.mp member
          exact target
      · rw [state, MasterState.references_applyRename valid.properSource.notRoot
          valid.properTarget.notRoot valid.free]
  | @snapshotted id m _ call kind ready waited calls state log =>
      have valid := named.moves id m call
      have files : s'.state.files = (s.state.applySnapshot m.source m.target).files := by
        rw [state]
        exact MasterState.files_apply_chunks s.state _ (.snapshot m.source m.target)
      have within : Namespace.Within [m.target] s.state.files s'.state.files := by
        rw [files]
        exact Namespace.within_snapshot valid.properSource.notRoot valid.properTarget.notRoot
          valid.free
      refine .inl fun other f call' =>
        .within onward within (fun inFiles p member => ?_) fun handle _ few => ?_
      · obtain rfl := List.mem_singleton.mp member
        exact (placed.outside_move named call call').2
      · -- a chunk that only the position of the call has is in no file below the source
        rw [files, MasterState.references_applySnapshot valid.properSource.notRoot]
        intro p file found below _ member
        rcases few with none | ⟨one, index, position⟩
        · exact absurd (references_pos found member) (by rw [none]; exact Nat.lt_irrefl 0)
        · obtain ⟨file', found', there⟩ := position_eq.mp position
          obtain rfl := eq_of_references_one one found member found' (List.mem_of_getElem? there)
          rw [(placed.outside_move named call call').1] at below
          cases below
  | @added id ok path index handle seq _ call calls state log =>
      have pending := accounted.creating id _ handle call rfl
      have path' := placed.adds id path index _ call
      have within : Namespace.Within [path] s.state.files s'.state.files := by
        intro q outside
        rw [state]
        refine getElem?_applyAddChunk (t := s.located handle ok) ?_
        rintro rfl
        simpa using outside path (List.mem_singleton.mpr rfl)
      refine .inl fun other f call' =>
        .within onward within (fun inFiles p member => ?_) fun h shown _ => ?_
      · obtain rfl := List.mem_singleton.mp member
        have different : other ≠ id := by
          rintro rfl
          cases call.symm.trans call'
        exact outside_of_owns (placed.paths other f call') path' (owns_forPath path'.notRoot)
          (named.locked other id _ _ different call' call)
      · have most : references s'.state.files h ≤
            references s.state.files h + if handle = h then 1 else 0 := by
          rw [state]
          exact MasterState.references_applyAddChunk_le (s := s.located handle ok)
        rw [if_neg] at most
        · exact most
        · rintro rfl
          exact shown pending
  | @replaced id ok f old fresh holders seq _ call phase calls state log isEnough =>
      exact .inr (.inl ⟨id, ok, f, old, fresh, holders, seq, rfl, isEnough, call, phase, calls, state⟩)

theorem Placed.preserved (named : Named s) (accounted : Accounted s) (placed : Placed s)
    (allowed : orderly s a = true) (wrote : Wrote cfg s a s') (turn : Turn cfg s s') :
    Placed s' := by
  rcases placed.steady_or named accounted allowed wrote with
    steady | ⟨id, ok, f, old, fresh, holders, seq, _, _, call, phase, calls, state⟩ | calls
  · exact placed.steady accounted turn steady
  · exact placed.replaced accounted turn call phase calls state
  · refine ⟨?_, ?_, ?_, ?_⟩
    · intro id f found
      rw [calls] at found
      simp at found
    · intro i j task task' found
      rw [calls] at found
      simp at found
    · intro id path index phase found
      rw [calls] at found
      simp at found
    · intro id f found
      rw [calls] at found
      simp at found

theorem placed_initial (initial : Initial s) : Placed s := by
  subst initial
  refine ⟨?_, ?_, ?_, ?_⟩
  · intro id f found
    simp at found
  · intro i j task task' found
    simp at found
  · intro id path index phase found
    simp at found
  · intro id f found
    simp at found

/-- The three invariants of the names, the counts and the positions. -/
structure Sound (s : Live) : Prop where
  named : Named s
  accounted : Accounted s
  placed : Placed s

theorem sound_initial (initial : Initial s) : Sound s :=
  ⟨named_initial initial, accounted_initial initial, placed_initial initial⟩

theorem Sound.silent (sound : Sound s) : Sound { s with answer := none } where
  named := ⟨sound.named.locked, sound.named.moves, sound.named.files, sound.named.tree⟩
  accounted := ⟨sound.accounted.counted, sound.accounted.fits, sound.accounted.mirrors,
    sound.accounted.creating, sound.accounted.distinct, sound.accounted.prefixes⟩
  placed := ⟨sound.placed.paths, sound.placed.cow, sound.placed.adds, fun id f found => by
    have holds := sound.placed.finds id f found
    obtain ⟨path, index, phase⟩ := f
    cases phase <;> first | exact holds | exact ⟨holds.below, holds.standing, holds.few⟩⟩

theorem Sound.preserved (sound : Sound s) (allowed : orderly s a = true)
    (wrote : Wrote cfg s a s') (turn : Turn cfg s s') : Sound s' where
  named := sound.named.preserved (Bool.and_eq_true_iff.mp allowed).1 wrote turn
  accounted := sound.accounted.preserved sound.named allowed wrote turn
  placed := sound.placed.preserved sound.named sound.accounted allowed wrote turn

theorem sound_of_orderly
    (reachable : Reachable (step cfg) Initial (fun s a => orderly s a = true) s) : Sound s := by
  refine reachable.invariant (fun _ => sound_initial) fun s a s' sound allowed taken => ?_
  obtain ⟨wrote, turn⟩ := act_section taken
  exact sound.silent.preserved allowed wrote turn

end

end Live

end Gfs.Master
