import Gfs.Master.Checkpoint
import Gfs.Master.Places
import Mathlib.Data.List.Dedup

/-!
# Leases of shared chunks

`Snapshot` revokes the leases of the chunks that it is about to share, and no `FindLeaseHolder` below
its source is under way. `Regrant` takes no path lock. One that has looked at the lease before it was
revoked installs a new lease afterwards, and the snapshot shares the chunk with that lease in force.
-/

namespace Gfs.Master
open Lib.Maps Lib.Transition LockTable ChunkTable

namespace Live

def Below (s : Live) (source : Str) (handle : Handle) : Prop :=
  ∃ (path : Str) (file : FileMeta), s.state.files[path]? = some file ∧
    isAncestorOrSelf source path = true ∧ isHiddenPath path = false ∧ handle ∈ file.chunks

def Barred (s : Live) (handle : Handle) : Prop :=
  ∀ m, s.state.chunks[handle]? = some m → m.Barred

/-- A regrant is not committed for a shared chunk or for one that a snapshot has revoked already. -/
def regrantsAlone (s : Live) : Action → Bool
  | .settle handle [] =>
      match s.grants[handle]? with
      | some ⟨none, _⟩ =>
          !((s.state.chunks[handle]?).any fun m => decide (1 < m.refcount)) &&
            s.calls.toList.all fun entry =>
              match entry.2 with
              | .move m => !(m.kind = .snapshot && m.handles.contains handle &&
                  !m.todo.contains handle)
              | _ => true
      | _ => true
  | _ => true

structure Unleased (s : Live) : Prop where
  shared : ∀ handle, 1 < references s.state.files handle → s.Barred handle
  covers : ∀ (id : Nat) m, s.calls[id]? = some (.move m) → m.kind = .snapshot →
    ∀ handle, handle ∈ m.handles ↔ s.Below m.source handle
  revoked : ∀ (id : Nat) m, s.calls[id]? = some (.move m) → m.kind = .snapshot →
    ∀ handle ∈ m.handles, handle ∉ m.todo → s.Barred handle
  clients : ∀ (handle : Handle) (id : Nat) stage, s.grants[handle]? = some ⟨some id, stage⟩ →
    ∃ f, s.calls[id]? = some (.find f) ∧ f.phase = .granting handle

section
variable {cfg : Config} {s s' : Live} {a : Action} {id : Nat} {m m' : Move} {f : Find}
  {handle : Handle} {path q source : Str}

/-! ## Below the source of a snapshot -/

theorem mem_handlesOf (source' : source ≠ ['/']) :
    handle ∈ s.handlesOf .snapshot source ↔ s.Below source handle := by
  rw [handlesOf, (List.perm_insertionSort _ _).mem_iff, List.mem_dedup, List.mem_flatMap]
  constructor
  · rintro ⟨⟨path, file⟩, member, inFile⟩
    obtain ⟨found, below, shown⟩ := (Namespace.mem_subtree source').mp member
    exact ⟨path, file, found, below, shown rfl, inFile⟩
  · rintro ⟨path, file, found, below, shown, inFile⟩
    exact ⟨(path, file), (Namespace.mem_subtree source').mpr ⟨found, below, fun _ => shown⟩, inFile⟩

theorem Below.positive (below : s.Below source handle) : 0 < references s.state.files handle := by
  obtain ⟨_, _, found, _, _, inFile⟩ := below
  exact references_pos found inFile

theorem below_congr (same : ∀ q, isAncestorOrSelf source q = true →
    s'.state.files[q]? = s.state.files[q]?) : s'.Below source handle ↔ s.Below source handle := by
  constructor
  · rintro ⟨path, file, found, below, rest⟩
    exact ⟨path, file, (same path below).symm.trans found, below, rest⟩
  · rintro ⟨path, file, found, below, rest⟩
    exact ⟨path, file, (same path below).trans found, below, rest⟩

theorem outside_of_apart (apart : Apart path source) (below : isAncestorOrSelf source q = true) :
    isAncestorOrSelf path q = false := by
  by_contra above
  have split := isAncestorOrSelf_comparable (by simpa using above) below
  rw [apart.1, apart.2] at split
  simp at split

theorem Sound.sheltered (sound : Sound s) (allowed : orderly s a = true) (wrote : Wrote cfg s a s')
    (call : s.calls[id]? = some (.move m)) (still : s'.calls[id]? = some (.move m'))
    (below : isAncestorOrSelf m.source q = true) : s'.state.files[q]? = s.state.files[q]? := by
  have named := sound.named
  have tree := named.tree_now
  have within : ∀ {paths : List Str}, Namespace.Within paths s.state.files s'.state.files →
      (∀ p ∈ paths, Apart p m.source) → s'.state.files[q]? = s.state.files[q]? := by
    intro paths within apart
    exact within q fun p member => outside_of_apart (apart p member) below
  rw [orderly, Bool.and_eq_true] at allowed
  cases wrote with
  | quiet kept leases => rw [kept.files]
  | heard kept leases => rw [kept.files]
  | committed grant found chunks kept => rw [kept.files]
  | allocated call fresh none calls state log => rw [state]; rfl
  | abandoned call creating calls state log => rw [state]; rfl
  | dropped state log => rw [state, MasterState.files_drops]
  | restarted calls state log =>
      rw [calls] at still
      simp at still
  | @created _ path _ valid free isOpen state log =>
      have files : s'.state.files = s.state.files.insertIfNew path {} := by
        rw [state]
        rfl
      refine within (files ▸ Namespace.within_create) fun p member => ?_
      obtain rfl := List.mem_singleton.mp member
      exact (named.apart free (checkPath_proper valid) call).1
  | @hidden _ path unixSeconds _ valid free there shown state log =>
      have path' := tree.proper path there
      obtain ⟨hidden', free', away⟩ := named.hidden allowed.1 valid free there shown
      have files : s'.state.files = s.state.files.renameSubtree path
          (s.state.files.freshHiddenName path unixSeconds) := by
        rw [state, files_applyRename _ there]
      refine within (files ▸ Namespace.within_rename path'.notRoot hidden'.notRoot free')
        fun p member => ?_
      rcases List.mem_cons.mp member with rfl | member
      · exact (named.apart free path' call).1
      · obtain rfl := List.mem_singleton.mp member
        exact (away id m call).1
  | @removed _ path _ free there isRemoval state log =>
      have files : s'.state.files = s.state.files.erase path := by
        obtain ⟨file, found⟩ := Namespace.mem_iff.mp there
        rw [state, MasterState.applyRemove, found]
      refine within (files ▸ Namespace.within_erase) fun p member => ?_
      obtain rfl := List.mem_singleton.mp member
      exact (named.apart free (tree.proper p there) call).1
  | @renamed other n _ call' kind ready calls state log =>
      have valid := named.moves other n call'
      have different : other ≠ id := by
        rintro rfl
        rw [calls, getElem?_insert, if_pos rfl] at still
        cases still
      obtain ⟨source, target⟩ := named.apart_moves different call' call
      have files : s'.state.files = s.state.files.renameSubtree n.source n.target := by
        rw [state, named.renamed call']
      refine within (files ▸ Namespace.within_rename valid.properSource.notRoot
        valid.properTarget.notRoot valid.free) fun p member => ?_
      rcases List.mem_cons.mp member with rfl | member
      · exact source.1
      · obtain rfl := List.mem_singleton.mp member
        exact target.1
  | @snapshotted other n _ call' kind ready waited calls state log =>
      have valid := named.moves other n call'
      have different : other ≠ id := by
        rintro rfl
        rw [calls, getElem?_insert, if_pos rfl] at still
        cases still
      obtain ⟨_, target⟩ := named.apart_moves different call' call
      have files : s'.state.files = (s.state.applySnapshot n.source n.target).files := by
        rw [state]
        exact MasterState.files_apply_chunks s.state _ (.snapshot n.source n.target)
      refine within (files ▸ Namespace.within_snapshot valid.properSource.notRoot
        valid.properTarget.notRoot valid.free) fun p member => ?_
      obtain rfl := List.mem_singleton.mp member
      exact target.1
  | @replaced other ok f old fresh holders seq _ call' phase calls state log =>
      rw [state]
      refine getElem?_applyReplaceChunk (t := s.located fresh ok) ?_
      rintro rfl
      rw [(sound.placed.outside_move named call call').1] at below
      cases below
  | @added other ok path index handle seq _ call' calls state log =>
      have path' := sound.placed.adds other path index _ call'
      have valid := named.moves id m call
      have different : other ≠ id := by
        rintro rfl
        cases call.symm.trans call'
      obtain ⟨source, _⟩ := owns_forPaths valid.properSource.notRoot valid.properTarget.notRoot
      have owns : Owns (normalize (forPath path .write)) path := owns_forPath path'.notRoot
      have apart := owns.apart source (named.locked other id _ _ different call' call)
        path'.nonempty valid.properSource.nonempty
      rw [state]
      refine getElem?_applyAddChunk (t := s.located handle ok) ?_
      rintro rfl
      rw [apart.2] at below
      cases below

/-! ## Leases and references under a section -/

theorem barred_of_mild {t : ChunkTable} (same : MildAt s.state.chunks[handle]? t[handle]?)
    (barred : s.Barred handle) (standing : s.state.chunks.standing handle = some false) :
    ∀ m, t[handle]? = some m → m.Barred := by
  intro m' found'
  obtain ⟨m, found, _⟩ := standing_eq_some.mp standing
  obtain ⟨m'', found'', _, _, quiet⟩ := same.present m found
  obtain rfl := Option.some.inj (found''.symm.trans found')
  exact quiet.barred (barred m found)

theorem Barred.of_quiet {records : List LogRecord} (barred : s.Barred handle)
    (standing : s.state.chunks.standing handle = some false) (_ : Kept s s' records)
    (leases : AllQuiet s.state.chunks s'.state.chunks) : s'.Barred handle := by
  intro m' found'
  obtain ⟨m, found, _⟩ := standing_eq_some.mp standing
  exact (leases handle m m' found found').barred (barred m found)

theorem Barred.given {ok : List ServerId} {fresh : Handle} (barred : s.Barred handle)
    (standing : s.state.chunks.standing handle = some false)
    (pending : s.state.chunks.standing fresh = some true)
    (gives : MasterState.Gives (s.located fresh ok) s'.state fresh) : s'.Barred handle := by
  have mild : Mild s.state.chunks (s.located fresh ok).chunks := mild_addLocations
  rcases gives.chunk handle with same | ⟨rfl, _⟩
  · refine fun m found => barred_of_mild (t := s'.state.chunks) ⟨?_, ?_⟩ barred standing m found
    · exact fun absent => same.absent ((mild handle).absent absent)
    · intro n there
      obtain ⟨n', there', pending, version, quiet⟩ := (mild handle).present n there
      obtain ⟨n'', there'', pending', version', quiet'⟩ := same.present n' there'
      exact ⟨n'', there'', pending'.trans pending, version'.trans version, quiet.trans quiet'⟩
  · rw [standing] at pending
    cases pending

theorem barred_restarted (accounted : Accounted s) {kept : Nat}
    (state : s'.state = (({} : MasterState).replay (s.log.take kept)).recomputeRefcounts)
    (handle : Handle) : s'.Barred handle := by
  intro m found l lease
  rw [state, recompute_fits (accounted.prefixes _ (List.take_prefix _ _)),
    MasterState.getElem?_recount] at found
  obtain ⟨m', there, rfl⟩ := Option.map_eq_some_iff.mp found
  have plain := (MasterState.plain_empty.replay (s.log.take kept)).chunks handle m' there
  have none : m'.lease = none := congrArg ChunkMeta.lease plain
  exact nomatch none.symm.trans lease

theorem Barred.next (sound : Sound s) (wrote : Wrote cfg s a s') (barred : s.Barred handle)
    (standing : s.state.chunks.standing handle = some false) :
    s'.Barred handle ∨
      ∃ client stage, a = .settle handle [] ∧ s.grants[handle]? = some ⟨client, stage⟩ := by
  have same : ∀ {t : ChunkTable}, s'.state.chunks = t →
      MildAt s.state.chunks[handle]? t[handle]? → s'.Barred handle := by
    intro t chunks mild m found
    rw [chunks] at found
    exact barred_of_mild mild barred standing m found
  have gone : ∀ {t : ChunkTable}, s'.state.chunks = t →
      t[handle]? = none ∨ t[handle]? = s.state.chunks[handle]? → s'.Barred handle := by
    intro t chunks cases_ m found
    rw [chunks] at found
    rcases cases_ with absent | unchanged
    · exact nomatch absent.symm.trans found
    · exact barred m (unchanged.symm.trans found)
  cases wrote with
  | quiet kept leases => exact .inl (barred.of_quiet standing kept leases)
  | heard kept leases => exact .inl (barred.of_quiet standing kept leases)
  | @committed other client round attempt _ _ grant found chunks kept =>
      by_cases here : other = handle
      · subst here
        exact .inr ⟨client, _, rfl, grant⟩
      · refine .inl (gone chunks (.inr ?_))
        rw [getElem?_insert, if_neg here]
  | created valid free isOpen state log => exact .inl (gone (by rw [state]; rfl) (.inr rfl))
  | hidden valid free there shown state log =>
      exact .inl (same (by rw [state]) (mild_rename handle))
  | removed free there isRemoval state log =>
      exact .inl (same (by rw [state]) (Mirrors.mild_applyRemove handle))
  | renamed call kind ready calls state log =>
      exact .inl (same (by rw [state]) (mild_rename handle))
  | snapshotted call kind ready waited calls state log =>
      refine .inl (same (by rw [state]) (Mild.trans ?_ Mirrors.mild_applySnapshot handle))
      exact mild_resetInvalid
  | allocated call fresh none calls state log =>
      have below := sound.accounted.fits.below handle (by rw [standing]; exact nofun)
      refine .inl (gone (by rw [state]) (.inr ?_))
      show (Std.ExtTreeMap.modify (s.state.chunks.create s.state.nextHandle 1) _ _)[handle]? = _
      rw [getElem?_modify, if_neg (Nat.ne_of_gt below), getElem?_create,
        if_neg (Nat.ne_of_gt below)]
  | @replaced id ok f old fresh holders seq _ call phase calls state log =>
      have gives : MasterState.Gives (s.located fresh ok) s'.state fresh := by
        rw [state]
        exact MasterState.gives_applyReplaceChunk
      exact .inl (barred.given standing
        (sound.accounted.creating id _ fresh call (creating_find phase)) gives)
  | @added id ok path index fresh seq _ call calls state log =>
      have gives : MasterState.Gives (s.located fresh ok) s'.state fresh := by
        rw [state]
        exact MasterState.gives_applyAddChunk
      exact .inl (barred.given standing (sound.accounted.creating id _ fresh call rfl) gives)
  | @abandoned _ id task other _ call creating calls state log =>
      refine .inl (gone (t := s.state.chunks.erase other) (by rw [state]; rfl) ?_)
      rw [getElem?_erase]
      split
      · exact .inl rfl
      · exact .inr rfl
  | dropped state log =>
      refine .inl (gone (by rw [state]) ?_)
      rw [MasterState.getElem?_drops]
      split
      · exact .inl rfl
      · exact .inr rfl
  | restarted calls state log => exact .inl (barred_restarted sound.accounted state handle)

theorem shared_before (sound : Sound s) (allowed : orderly s a = true) (wrote : Wrote cfg s a s')
    (shared : 1 < references s'.state.files handle) :
    1 < references s.state.files handle ∨
      (∃ (id : Nat) (m : Move), s.calls[id]? = some (.move m) ∧ m.kind = .snapshot ∧ m.todo = [] ∧
        s.Below m.source handle) ∨ s'.Barred handle := by
  have named := sound.named
  have tree := named.tree_now
  have fewer : references s'.state.files handle ≤ references s.state.files handle →
      1 < references s.state.files handle := Nat.lt_of_lt_of_le shared
  -- a chunk that gets its first file is in one position afterwards
  have first : ∀ {fresh : Handle}, s.state.chunks.standing fresh = some true →
      references s'.state.files handle ≤
        references s.state.files handle + (if fresh = handle then 1 else 0) →
      1 < references s.state.files handle := by
    intro fresh pending most
    split at most
    · rename_i same
      subst same
      rw [sound.accounted.fits.unreferenced (by rw [pending]; exact nofun)] at most
      exact absurd shared (Nat.not_lt.mpr most)
    · exact fewer most
  rw [orderly, Bool.and_eq_true] at allowed
  cases wrote with
  | quiet kept leases => exact .inl (kept.files ▸ shared)
  | heard kept leases => exact .inl (kept.files ▸ shared)
  | committed grant found chunks kept => exact .inl (kept.files ▸ shared)
  | allocated call fresh none calls state log => exact .inl (by rw [state] at shared; exact shared)
  | abandoned call creating calls state log => exact .inl (by rw [state] at shared; exact shared)
  | dropped state log => exact .inl (by rw [state, MasterState.files_drops] at shared; exact shared)
  | restarted calls state log => exact .inr (.inr (barred_restarted sound.accounted state handle))
  | @created _ path _ valid free isOpen state log =>
      have files : s'.state.files = s.state.files.insertIfNew path {} := by
        rw [state]
        rfl
      rw [files, references_create] at shared
      exact .inl shared
  | @hidden _ path unixSeconds _ valid free there shown state log =>
      obtain ⟨hidden', free', _⟩ := named.hidden allowed.1 valid free there shown
      rw [state, MasterState.references_applyRename (tree.proper path there).notRoot
        hidden'.notRoot free'] at shared
      exact .inl shared
  | removed free there isRemoval state log =>
      exact .inl (fewer (by rw [state]; exact MasterState.references_applyRemove_le))
  | @renamed id m _ call kind ready calls state log =>
      have valid := named.moves id m call
      rw [state, MasterState.references_applyRename valid.properSource.notRoot
        valid.properTarget.notRoot valid.free] at shared
      exact .inl shared
  | @snapshotted id m _ call kind ready waited calls state log =>
      by_cases below : s.Below m.source handle
      · exact .inr (.inl ⟨id, m, call, kind, ready.1, below⟩)
      · have valid := named.moves id m call
        have files : s'.state.files = (s.state.applySnapshot m.source m.target).files := by
          rw [state]
          exact MasterState.files_apply_chunks s.state _ (.snapshot m.source m.target)
        left
        rw [files, MasterState.references_applySnapshot valid.properSource.notRoot
          fun p file found inside shown inFile => below ⟨p, file, found, inside, shown, inFile⟩]
          at shared
        exact shared
  | @replaced id ok f old fresh holders seq _ call phase calls state log =>
      left
      apply first (sound.accounted.creating id _ fresh call (creating_find phase))
      rw [state]
      exact MasterState.references_applyReplaceChunk_le (s := s.located fresh ok)
  | @added id ok path index fresh seq _ call calls state log =>
      left
      apply first (sound.accounted.creating id _ fresh call rfl)
      rw [state]
      exact MasterState.references_applyAddChunk_le (s := s.located fresh ok)

/-! ## The invariant -/

/-- A grant for a call is for a chunk that is in no other position, so it is not shared and not
below the source of a snapshot. -/
theorem Unleased.apart (sound : Sound s) (unleased : Unleased s) {stage : GrantStage}
    (grant : s.grants[handle]? = some ⟨some id, stage⟩) :
    references s.state.files handle ≤ 1 ∧ ∀ (other : Nat) m, s.calls[other]? = some (.move m) →
      ¬ s.Below m.source handle := by
  obtain ⟨f, call, phase⟩ := unleased.clients handle id stage grant
  have decided : s.Decided f handle := by
    have holds := sound.placed.finds id f call
    obtain ⟨path, index, _⟩ := f
    cases phase
    exact holds
  rcases decided.few with none | sole
  · exact ⟨none ▸ Nat.zero_le 1, fun _ m _ below => Nat.ne_of_gt below.positive none⟩
  · refine ⟨Nat.le_of_eq sole.2, fun other m move below => ?_⟩
    obtain ⟨path, file, found, inside, _, inFile⟩ := below
    obtain ⟨file', found', there⟩ := position_eq.mp sole.1
    obtain rfl := eq_of_references_one sole.2 found inFile found' (List.mem_of_getElem? there)
    rw [(sound.placed.outside_move sound.named move call).1] at inside
    cases inside

theorem Unleased.spared (sound : Sound s) (unleased : Unleased s)
    (alone : regrantsAlone s (.settle handle []) = true) {client : Option Nat} {stage : GrantStage}
    (grant : s.grants[handle]? = some ⟨client, stage⟩) :
    references s.state.files handle ≤ 1 ∧ ∀ (id : Nat) m, s.calls[id]? = some (.move m) →
      m.kind = .snapshot → handle ∈ m.handles → handle ∈ m.todo := by
  cases client with
  | some id =>
      obtain ⟨few, outside⟩ := unleased.apart sound grant
      refine ⟨few, fun other m call kind member => ?_⟩
      exact absurd ((unleased.covers other m call kind handle).mp member) (outside other m call)
  | none =>
      simp only [regrantsAlone, grant, Bool.and_eq_true, Bool.not_eq_true'] at alone
      constructor
      · by_contra shared
        have shared := Nat.lt_of_not_le shared
        obtain ⟨m, found, _⟩ := standing_eq_some.mp
          (sound.accounted.fits.backed handle (Nat.lt_trans Nat.zero_lt_one shared))
        have count := alone.1
        rw [← sound.accounted.counted.exact handle m found] at shared
        simp [found, shared] at count
      · intro id m call kind member
        have one := List.all_eq_true.mp alone.2 (id, .move m)
          (Std.ExtTreeMap.mem_toList_iff_getElem?_eq_some.mpr call)
        simpa [kind, member] using one

theorem granting_turn (turn : Turn cfg s s') (call : s.calls[id]? = some (.find f))
    (phase : f.phase = .granting handle) :
    s'.calls[id]? = some (.find f) ∨ Released s s' id ∨ s'.grants = ∅ := by
  cases turn with
  | same calls => exact .inl (calls ▸ call)
  | begun new task fresh free begins calls =>
      left
      rw [calls, getElem?_insert, if_neg, call]
      rintro rfl
      exact nomatch call.symm.trans fresh
  | turned other task task' there calls advances =>
      by_cases same : other = id
      · subst same
        obtain rfl := Option.some.inj (call.symm.trans there)
        cases advances with
        | @finding _ f' path index next =>
            obtain ⟨_, _, phase'⟩ := f'
            dsimp only at next
            cases next with
            | granted _ released => exact .inr (.inl released)
            | _ before => exact nomatch phase.symm.trans before
        | finishing _ notFind => exact absurd rfl (notFind f)
      · left
        rw [calls, getElem?_insert, if_neg same, call]
  | ended other task there idle calls =>
      by_cases same : other = id
      · subst same
        obtain rfl := Option.some.inj (call.symm.trans there)
        exact .inr (.inl (idle f handle rfl phase))
      · left
        rw [calls, getElem?_erase, if_neg same, call]
  | answered other g _ there before calls =>
      left
      rw [calls, getElem?_erase, if_neg, call]
      rintro rfl
      cases Option.some.inj (call.symm.trans there)
      rcases before with before | before <;> exact nomatch phase.symm.trans before
  | lost calls answer grants => exact .inr (.inr grants)

theorem Unleased.clients_turn (unleased : Unleased s) (turn : Turn cfg s s') (handle : Handle)
    (id : Nat) (stage : GrantStage) (grant : s'.grants[handle]? = some ⟨some id, stage⟩) :
    ∃ f, s'.calls[id]? = some (.find f) ∧ f.phase = .granting handle := by
  have old : ∀ {stage}, s.grants[handle]? = some ⟨some id, stage⟩ →
      ∃ f, s'.calls[id]? = some (.find f) ∧ f.phase = .granting handle := by
    intro stage before
    obtain ⟨f, call, phase⟩ := unleased.clients handle id stage before
    rcases granting_turn turn call phase with still | ⟨other, stage', there, grants⟩ | grants
    · exact ⟨f, still, phase⟩
    · obtain ⟨f', call', phase'⟩ := unleased.clients other id stage' there
      cases Option.some.inj (call.symm.trans call')
      cases phase.symm.trans phase'
      rw [grants, getElem?_erase, if_pos rfl] at grant
      cases grant
    · rw [grants] at grant
      simp at grant
  cases turn.grants with
  | same grants => exact old (grants ▸ grant)
  | opened id' f other call phase fresh calls grants =>
      rw [grants, getElem?_insert] at grant
      split at grant
      · rename_i same
        subst same
        cases grant
        exact ⟨_, by rw [calls, getElem?_insert, if_pos rfl], rfl⟩
      · exact old grant
  | regranting other grants =>
      rw [grants, getElem?_insert] at grant
      split at grant
      · cases grant
      · exact old grant
  | staged other client stage' stage'' there under grants =>
      rw [grants, getElem?_insert] at grant
      split at grant
      · rename_i same
        subst same
        cases grant
        exact old there
      · exact old grant
  | closed other grants =>
      rw [grants, getElem?_erase] at grant
      split at grant
      · cases grant
      · exact old grant
  | lost grants =>
      rw [grants] at grant
      simp at grant

theorem Unleased.stays (sound : Sound s) (unleased : Unleased s)
    (alone : regrantsAlone s a = true) (wrote : Wrote cfg s a s') (barred : s.Barred handle)
    (positive : 0 < references s.state.files handle)
    (busy : 1 < references s.state.files handle ∨ ∃ (id : Nat) (m : Move),
      s.calls[id]? = some (.move m) ∧ m.kind = .snapshot ∧ handle ∈ m.handles ∧ handle ∉ m.todo) :
    s'.Barred handle := by
  have standing := sound.accounted.fits.backed handle positive
  rcases barred.next sound wrote standing with still | ⟨client, stage, rfl, grant⟩
  · exact still
  · obtain ⟨few, waiting⟩ := unleased.spared sound alone grant
    rcases busy with shared | ⟨id, m, call, kind, member, finishing⟩
    · exact absurd few (Nat.not_le.mpr shared)
    · exact absurd (waiting id m call kind member) finishing

theorem Unleased.preserved (sound : Sound s) (unleased : Unleased s)
    (allowed : orderly s a = true) (alone : regrantsAlone s a = true) (wrote : Wrote cfg s a s')
    (turn : Turn cfg s s') : Unleased s' := by
  have done : ∀ (id : Nat) (m : Move), s.calls[id]? = some (.move m) → m.kind = .snapshot →
      ∀ handle ∈ m.handles, handle ∉ m.todo → s'.Barred handle := by
    intro id m call kind handle member finishing
    have below := (unleased.covers id m call kind handle).mp member
    exact unleased.stays sound alone wrote (unleased.revoked id m call kind handle member finishing)
      below.positive (.inr ⟨id, m, call, kind, member, finishing⟩)
  refine ⟨fun handle shared => ?_, fun id m found kind handle => ?_,
    fun id m found kind handle member finishing => ?_, unleased.clients_turn turn⟩
  · rcases shared_before sound allowed wrote shared with
      before | ⟨id, m, call, kind, none, below⟩ | barred
    · exact unleased.stays sound alone wrote (unleased.shared handle before)
        (Nat.lt_trans Nat.zero_lt_one before) (.inl before)
    · exact done id m call kind handle ((unleased.covers id m call kind handle).mpr below)
        (none ▸ List.not_mem_nil)
    · exact barred
  · rcases turn.call found with old | ⟨_, begins, _⟩ | ⟨before, there, advances, _⟩
    · rw [unleased.covers id m old kind, below_congr fun q => sound.sheltered allowed wrote old found]
    · cases begins with
      | move source' target' outside there isOpen handles state =>
          cases kind
          rw [handles, mem_handlesOf (checkPath_proper source').notRoot]
          exact (below_congr fun q _ => by rw [state]).symm
    · cases advances with
      | @moving m₀ _ kind₀ source target handles barred =>
          have below : s'.Below m₀.source handle ↔ s.Below m₀.source handle :=
            below_congr fun q => sound.sheltered allowed wrote there found
          rw [handles, source, below]
          exact unleased.covers id m₀ there (kind₀.symm.trans kind) handle
  · rcases turn.call found with old | ⟨_, begins, _⟩ | ⟨before, there, advances, _⟩
    · exact done id m old kind handle member finishing
    · cases begins with
      | move => exact absurd member finishing
    · cases advances with
      | @moving m₀ _ kind₀ source target handles barred =>
          rw [handles] at member
          by_cases waiting : handle ∈ m₀.todo
          · exact barred handle waiting finishing
          · exact done id m₀ there (kind₀.symm.trans kind) handle member waiting

theorem Unleased.silent (unleased : Unleased s) : Unleased { s with answer := none } :=
  ⟨unleased.shared, unleased.covers, unleased.revoked, unleased.clients⟩

theorem unleased_initial (initial : Initial s) : Unleased s := by
  subst initial
  refine ⟨fun handle shared => ?_, fun id m found => ?_, fun id m found => ?_,
    fun handle id stage found => ?_⟩
  · intro m found
    simp at found
  · simp at found
  · simp at found
  · simp at found

theorem sound_unleased (reachable : Reachable (step cfg) Initial
    (fun s a => orderly s a = true ∧ regrantsAlone s a = true) s) : Sound s ∧ Unleased s := by
  have sure : ∀ s, Reachable (step cfg) Initial
      (fun s a => orderly s a = true ∧ regrantsAlone s a = true) s → Sound s :=
    fun s before => sound_of_orderly (before.mono fun _ _ allowed => allowed.1)
  refine ⟨sure s reachable, reachable.invariant_over sure (fun _ => unleased_initial) ?_⟩
  intro s a s' sound unleased allowed taken
  obtain ⟨wrote, turn⟩ := act_section taken
  exact unleased.silent.preserved sound.silent allowed.1 allowed.2 wrote turn

/-- No lease of a shared chunk is valid, at any time. -/
theorem unleased_of_allowed (reachable : Reachable (step cfg) Initial
    (fun s a => orderly s a = true ∧ regrantsAlone s a = true) s) (handle : Handle) (m : ChunkMeta)
    (found : s.state.chunks[handle]? = some m) (shared : 1 < m.refcount) (now : TimePoint) :
    m.isValid cfg now = false := by
  obtain ⟨sound, unleased⟩ := sound_unleased reachable
  rw [sound.accounted.counted.exact handle m found] at shared
  exact (unleased.shared handle shared m found).isValid

end

/-- A regrant of the chunk of `/a` has looked at the lease before the snapshot revokes it. -/
def lateRegrant : List Action :=
  [.create 0 fileA, .flush 1, .done 0, .addChunk 1 fileA 0, .alloc 1, .touch 2 serverP, .flush 2,
    .endAdd 1 [serverP], .flush 3, .done 1, .findLeaseHolder 4 fileA 0, .attempt 4, .decideLease 4,
    .grant 4, .prepare 1, .settle 1 [], .flush 4, .endGrant 1, .respond 4,
    .touch 5 "q".toList, .hear 5 { chunks := [(1, 2)] }, .requestRegrant 1, .regrant 1, .recheck 1,
    .prepare 1, .move 3 .snapshot fileA fileS, .revoke 3, .revoked 3 true, .settle 1 [], .finish 3]

/-- The file and its snapshot share chunk 1, which has a valid lease. -/
theorem unleased_fails :
    ∃ s m, Reachable (step {}) Initial (fun _ _ => True) s ∧ s.state.chunks[1]? = some m ∧
      1 < m.refcount ∧ m.isValid {} s.now = true := by
  obtain ⟨s, ran⟩ := Option.isSome_iff_exists.mp
    (by decide +kernel : (run (step {}) {} lateRegrant).isSome = true)
  have both : (run (step {}) {} lateRegrant).all (fun s => (s.state.chunks[1]?).any fun m =>
      1 < m.refcount && m.isValid {} s.now) = true := by
    decide +kernel
  simp only [ran, Option.all_some, Option.any_eq_true, Bool.and_eq_true, decide_eq_true_eq] at both
  obtain ⟨m, found, shared, valid⟩ := both
  exact ⟨s, m, reachable_run_true rfl ran, found, shared, valid⟩

def earlyRegrant : List Action :=
  [.create 0 fileA, .flush 1, .done 0, .addChunk 1 fileA 0, .alloc 1, .touch 2 serverP, .flush 2,
    .endAdd 1 [serverP], .flush 3, .done 1, .findLeaseHolder 4 fileA 0, .attempt 4, .decideLease 4,
    .grant 4, .prepare 1, .settle 1 [], .flush 4, .endGrant 1, .respond 4,
    .touch 5 "q".toList, .hear 5 { chunks := [(1, 2)] }, .requestRegrant 1, .regrant 1, .recheck 1,
    .prepare 1, .settle 1 [], .move 3 .snapshot fileA fileS, .revoke 3, .revoked 3 true, .finish 3]

theorem unleased_shared :
    ∃ s m, run (step {}) {} earlyRegrant = some s ∧ s.state.chunks[1]? = some m ∧
      1 < m.refcount ∧ m.isValid {} s.now = false := by
  obtain ⟨s, ran⟩ := Option.isSome_iff_exists.mp
    (by decide +kernel : (run (step {}) {} earlyRegrant).isSome = true)
  have both : (run (step {}) {} earlyRegrant).all (fun s => (s.state.chunks[1]?).any fun m =>
      1 < m.refcount) = true := by
    decide +kernel
  simp only [ran, Option.all_some, Option.any_eq_true, decide_eq_true_eq] at both
  obtain ⟨m, found, shared⟩ := both
  exact ⟨s, m, ran, found, shared,
    unleased_of_allowed (reachable_run rfl (by decide +kernel) ran) 1 m found shared s.now⟩

end Live

end Gfs.Master
