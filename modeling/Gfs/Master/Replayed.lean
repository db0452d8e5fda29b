import Gfs.Master.Answers

/-!
# Live state and replayed state

The sections change the table through other code than replay does. A chunk that is pending is not in
the replayed state; while it is pending its version stays 1, so that the record which gives it to a
file reproduces it. From then on every change of its version is in the log.
-/

namespace Gfs.Master
open Lib.Maps Lib.Transition LockTable ChunkTable

/-! ## Versions -/

/-- A pending chunk is at version 1 and has no lease. -/
def Young (chunks : ChunkTable) : Prop :=
  ∀ (handle : Handle) m, chunks[handle]? = some m → m.pending = true →
    m.version = 1 ∧ m.lease = none

/-- The second state has every chunk of the first that is not pending, at its version. -/
def Level (s t : MasterState) : Prop :=
  ∀ (handle : Handle) m, s.chunks[handle]? = some m → m.pending = false →
    ∃ m', t.chunks[handle]? = some m' ∧ m'.version = m.version

section
variable {chunks chunks' : ChunkTable} {s s' t t' : MasterState} {handle : Handle}
  {records : List LogRecord}

theorem Young.mild (young : Young chunks) (mild : Mild chunks chunks') : Young chunks' := by
  intro handle m' found' pending'
  cases found : chunks[handle]? with
  | none => exact nomatch ((mild handle).absent found).symm.trans found'
  | some m =>
      obtain ⟨m'', found'', pending, version, lease⟩ := (mild handle).present m found
      obtain rfl := Option.some.inj (found''.symm.trans found')
      obtain ⟨one, none⟩ := young handle m found (pending.symm.trans pending')
      exact ⟨version.trans one, lease.stays none⟩

theorem Level.mild (level : Level s t) (mild : Mild s.chunks s'.chunks)
    (mild' : Mild t.chunks t'.chunks) : Level s' t' := by
  intro handle m' found' shown'
  cases found : s.chunks[handle]? with
  | none => exact nomatch ((mild handle).absent found).symm.trans found'
  | some m =>
      obtain ⟨m'', found'', pending, version, _⟩ := (mild handle).present m found
      obtain rfl := Option.some.inj (found''.symm.trans found')
      obtain ⟨n, there, same⟩ := level handle m found (pending.symm.trans shown')
      obtain ⟨n', there', _, version', _⟩ := (mild' handle).present n there
      exact ⟨n', there', version'.trans (same.trans version.symm)⟩

theorem Level.given (level : Level s t) (young : Young s.chunks) (mirrors : Mirrors s t)
    (mirrors' : Mirrors s' t') (pending : s.chunks.standing handle = some true)
    (gives : MasterState.Gives s s' handle) (gives' : MasterState.Gives t t' handle) :
    Level s' t' := by
  intro other m' found' shown'
  rcases gives.chunk other with mild | ⟨rfl, m'', found'', _, version⟩
  · cases found : s.chunks[other]? with
    | none => exact nomatch (mild.absent found).symm.trans found'
    | some m =>
        obtain ⟨m'', found'', same, version, _⟩ := mild.present m found
        obtain rfl := Option.some.inj (found''.symm.trans found')
        obtain ⟨n, there, equal⟩ := level other m found (same.symm.trans shown')
        rcases gives'.chunk other with mild' | ⟨rfl, _⟩
        · obtain ⟨n', there', _, version', _⟩ := mild'.present n there
          exact ⟨n', there', version'.trans (equal.trans version.symm)⟩
        · obtain ⟨n', there', pending'⟩ := standing_eq_some.mp pending
          obtain rfl := Option.some.inj (found.symm.trans there')
          exact absurd (shown'.symm.trans (same.trans pending')) Bool.false_ne_true
  · -- the replayed state did not have the chunk, so it makes it at version 1
    obtain rfl := Option.some.inj (found''.symm.trans found')
    obtain ⟨n, there, isPending⟩ := standing_eq_some.mp pending
    have one : m''.version = 1 := by
      rw [version, there]
      exact (young other n there isPending).1
    have fresh : t.chunks[other]? = none := by
      refine Option.map_eq_none_iff.mp ((mirrors.chunks other).trans ?_)
      rw [pending]
      rfl
    have made : t'.chunks.standing other = some false := by
      rw [mirrors'.chunks, standing_eq_some.mpr ⟨m'', found', shown'⟩]
      rfl
    rcases gives'.chunk other with mild | ⟨_, n', there', _, version'⟩
    · rw [ChunkTable.standing, mild.absent fresh] at made
      cases made
    · rw [fresh] at version'
      exact ⟨n', there', version'.trans one.symm⟩

theorem bumped_other {version : Nat} (other : ∀ raised, .bumpVersion handle raised ∉ records) :
    bumped records handle version = version := by
  induction records generalizing version with
  | nil => rfl
  | cons record records ih =>
      have rest : bumped records handle version = version := ih fun raised member =>
        other raised (List.mem_cons_of_mem _ member)
      cases record with
      | bumpVersion handle' raised =>
          have different : handle' ≠ handle := by
            rintro rfl
            exact other raised List.mem_cons_self
          simp only [bumped, List.foldl_cons, if_neg different]
          exact rest
      | _ => exact rest

theorem getElem?_bumps
    (bumps : ∀ record ∈ records, ∃ handle version, record = .bumpVersion handle version) :
    (t.replay records).chunks[handle]? =
      t.chunks[handle]?.map fun m => { m with version := bumped records handle m.version } := by
  induction records generalizing t with
  | nil => cases found : t.chunks[handle]? <;> simp [MasterState.replay, bumped, found]
  | cons record records ih =>
      obtain ⟨raised, version, rfl⟩ := bumps record List.mem_cons_self
      have rest := ih (t := t.applyBumpVersion raised version) fun later member =>
        bumps later (List.mem_cons_of_mem _ member)
      have one : (t.applyBumpVersion raised version).chunks[handle]? = _ := getElem?_modify
      refine rest.trans ?_
      rw [one]
      by_cases same : raised = handle
      · subst same
        cases found : t.chunks[raised]? <;> simp [bumped]
      · cases found : t.chunks[handle]? <;> simp [bumped, same]

end

/-! ## The invariant -/

namespace Live

/-- No heartbeat reports a chunk that is pending at a version above that of the table. -/
def reportsShown (s : Live) : Action → Bool
  | .hear _ req => req.chunks.all fun entry =>
      match s.state.chunks[entry.1]? with
      | some m => !m.pending || entry.2 ≤ m.version
      | none => true
  | _ => true

structure Replayed (s : Live) : Prop where
  young : Young s.state.chunks
  level : Level s.state (({} : MasterState).replay s.log)
  grants : ∀ (handle : Handle) g, s.grants[handle]? = some g → g.stage.isUnder = true →
    handle < s.state.nextHandle ∧ s.state.chunks.standing handle ≠ some true

section
variable {cfg : Config} {s s' : Live} {a : Action} {id : Nat} {handle : Handle}
  {records : List LogRecord}

theorem Replayed.grants_turn (sound : Sound s) (replayed : Replayed s) (turn : Turn cfg s s')
    (onward : Onward s s') (handle : Handle) (g : GrantCall)
    (found : s'.grants[handle]? = some g) (under : g.stage.isUnder = true) :
    handle < s'.state.nextHandle ∧ s'.state.chunks.standing handle ≠ some true := by
  suffices before : handle < s.state.nextHandle ∧ s.state.chunks.standing handle ≠ some true from
    ⟨Nat.lt_of_lt_of_le before.1 onward.next, onward.standing handle before.1 before.2⟩
  have old : s.grants[handle]? = some g → handle < s.state.nextHandle ∧
      s.state.chunks.standing handle ≠ some true := fun there => replayed.grants handle g there under
  cases turn.grants with
  | same grants => exact old (grants ▸ found)
  | opened id f other call phase fresh calls grants =>
      rw [grants, getElem?_insert] at found
      split at found
      · rename_i same
        subst same
        have decided : s.Decided f other := by
          have holds := sound.placed.finds id f call
          obtain ⟨path, index, _⟩ := f
          cases phase
          exact ⟨holds.below, holds.standing, holds.few⟩
        exact ⟨decided.below, decided.standing⟩
      · exact old found
  | regranting other grants =>
      rw [grants, getElem?_insert] at found
      split at found
      · cases found
        cases under
      · exact old found
  | staged other client stage stage' there underBefore grants =>
      rw [grants, getElem?_insert] at found
      split at found
      · rename_i same
        subst same
        cases found
        rcases underBefore under with before | ⟨m, inTable, valid⟩
        · exact replayed.grants other _ there before
        · obtain ⟨l, lease, _⟩ := ChunkMeta.isValid_lease valid
          have shown : s.state.chunks.standing other ≠ some true := by
            intro pending
            obtain ⟨m', inTable', pending⟩ := standing_eq_some.mp pending
            obtain rfl := Option.some.inj (inTable.symm.trans inTable')
            cases (replayed.young other m inTable pending).2.symm.trans lease
          refine ⟨sound.accounted.fits.below other ?_, shown⟩
          rw [ChunkTable.standing, inTable]
          exact Option.some_ne_none _
      · exact old found
  | closed other grants =>
      rw [grants, getElem?_erase] at found
      split at found
      · cases found
      · exact old found
  | lost grants =>
      rw [grants] at found
      simp at found

theorem Replayed.kept (replayed : Replayed s) (kept : Kept s s' records)
    (shown : ∀ handle version, .bumpVersion handle version ∈ records →
      s.state.chunks.standing handle ≠ some true)
    (leases : ∀ (handle : Handle) m m', s.state.chunks[handle]? = some m → m.pending = true →
      s'.state.chunks[handle]? = some m' → m.lease = none → m'.lease = none) :
    Young s'.state.chunks ∧ Level s'.state (({} : MasterState).replay s'.log) := by
  have before : ∀ (handle : Handle) m', s'.state.chunks[handle]? = some m' →
      ∃ m, s.state.chunks[handle]? = some m ∧ m'.pending = m.pending ∧
        m'.version = bumped records handle m.version := by
    intro handle m' found'
    cases found : s.state.chunks[handle]? with
    | none => exact nomatch (kept.chunks.absent handle found).symm.trans found'
    | some m =>
        obtain ⟨m'', found'', _, pending, version⟩ := kept.chunks.present handle m found
        obtain rfl := Option.some.inj (found''.symm.trans found')
        exact ⟨m, rfl, pending, version⟩
  refine ⟨fun handle m' found' pending' => ?_, fun handle m' found' shown' => ?_⟩
  · obtain ⟨m, found, pending, version⟩ := before handle m' found'
    have isPending := pending.symm.trans pending'
    obtain ⟨one, none⟩ := replayed.young handle m found isPending
    refine ⟨?_, leases handle m m' found isPending found' none⟩
    rw [version, bumped_other fun raised member => ?_]
    · exact one
    · exact shown handle raised member (standing_eq_some.mpr ⟨m, found, isPending⟩)
  · obtain ⟨m, found, pending, version⟩ := before handle m' found'
    obtain ⟨n, there, same⟩ := replayed.level handle m found (pending.symm.trans shown')
    rw [kept.log, MasterState.replay_append, getElem?_bumps kept.chunks.bumps, there]
    exact ⟨_, rfl, by rw [version, ← same]⟩

theorem Replayed.mild (replayed : Replayed s) {record : LogRecord}
    (log : s'.log = s.log ++ [record]) (mild : Mild s.state.chunks s'.state.chunks)
    (mild' : ∀ t : MasterState, Mild t.chunks (t.apply record).chunks) :
    Young s'.state.chunks ∧ Level s'.state (({} : MasterState).replay s'.log) := by
  refine ⟨replayed.young.mild mild, ?_⟩
  rw [log, MasterState.replay_append]
  exact replayed.level.mild mild (mild' _)

theorem Replayed.given (sound : Sound s) (sound' : Sound s') (replayed : Replayed s)
    {ok : List ServerId} {task : Task} {record : LogRecord} (call : s.calls[id]? = some task)
    (creating : task.creating = some handle) (log : s'.log = s.log ++ [record])
    (gives : MasterState.Gives (s.located handle ok) s'.state handle)
    (gives' : ∀ t : MasterState, MasterState.Gives t (t.apply record) handle) :
    Young s'.state.chunks ∧ Level s'.state (({} : MasterState).replay s'.log) := by
  have located : Mild s.state.chunks (s.located handle ok).chunks := mild_addLocations
  have young : Young (s.located handle ok).chunks := replayed.young.mild located
  have pending : (s.located handle ok).chunks.standing handle = some true :=
    located.standing.trans (sound.accounted.creating id task handle call creating)
  have mirrors := sound'.accounted.mirrors
  rw [log, MasterState.replay_append] at mirrors ⊢
  refine ⟨fun other m' found' pending' => ?_, ?_⟩
  · rcases gives.chunk other with mild | ⟨_, m'', found'', shown, _⟩
    · cases found : (s.located handle ok).chunks[other]? with
      | none => exact nomatch (mild.absent found).symm.trans found'
      | some m =>
          obtain ⟨m'', found'', same, version, lease⟩ := mild.present m found
          obtain rfl := Option.some.inj (found''.symm.trans found')
          obtain ⟨one, none⟩ := young other m found (same.symm.trans pending')
          exact ⟨version.trans one, lease.stays none⟩
    · obtain rfl := Option.some.inj (found''.symm.trans found')
      rw [shown] at pending'
      cases pending'
  · refine Level.given ?_ young ?_ mirrors pending gives (gives' _)
    · exact replayed.level.mild located .refl
    · exact sound.accounted.mirrors.of_same rfl rfl fun _ => by rw [located.standing]

theorem Replayed.allocated (sound : Sound s) (replayed : Replayed s)
    (state : s'.state = s.allocHandle.state)
    (log : s'.log = s.log ++ [.allocHandle s.state.nextHandle]) :
    Young s'.state.chunks ∧ Level s'.state (({} : MasterState).replay s'.log) := by
  have fresh : s.state.chunks[s.state.nextHandle]? = none :=
    Option.map_eq_none_iff.mp sound.accounted.fits.fresh
  have looked : ∀ handle : Handle, s'.state.chunks[handle]? =
      if s.state.nextHandle = handle then some { version := 1, pending := true }
      else s.state.chunks[handle]? := by
    intro handle
    rw [state]
    refine getElem?_modify.trans ?_
    rw [getElem?_create]
    split
    · rename_i same
      have absent : (s.state.applyAllocHandle s.state.nextHandle).chunks[handle]? = none :=
        same ▸ fresh
      rw [absent]
      rfl
    · rfl
  refine ⟨fun handle m found pending => ?_, fun handle m found shown => ?_⟩
  · rw [looked] at found
    split at found
    · cases found
      exact ⟨rfl, rfl⟩
    · exact replayed.young handle m found pending
  · rw [looked] at found
    split at found
    · cases found
      cases shown
    · rw [log, MasterState.replay_append]
      exact replayed.level handle m found shown

theorem Replayed.abandoned (replayed : Replayed s) (state : s'.state = (s.abandon handle).state)
    (log : s'.log = s.log) :
    Young s'.state.chunks ∧ Level s'.state (({} : MasterState).replay s'.log) := by
  have before : ∀ (other : Handle) m, s'.state.chunks[other]? = some m →
      s.state.chunks[other]? = some m := by
    intro other m found
    rw [state] at found
    have erased := getElem?_erase.symm.trans found
    split at erased
    · cases erased
    · exact erased
  refine ⟨fun other m found => replayed.young other m (before other m found), ?_⟩
  rw [log]
  exact fun other m found => replayed.level other m (before other m found)

theorem Replayed.dropped (replayed : Replayed s)
    (state : s'.state = s.orphans.foldl MasterState.applyDropChunk s.state)
    (log : s'.log = s.log ++ s.orphans.map LogRecord.dropChunk) :
    Young s'.state.chunks ∧ Level s'.state (({} : MasterState).replay s'.log) := by
  have looked : ∀ other : Handle, s'.state.chunks[other]? =
      if other ∈ s.orphans then none else s.state.chunks[other]? := by
    intro other
    rw [state, MasterState.getElem?_drops]
  refine ⟨fun other m found pending => ?_, fun other m found shown => ?_⟩
  · rw [looked] at found
    split at found
    · cases found
    · exact replayed.young other m found pending
  · rw [looked] at found
    split at found
    · cases found
    · rename_i kept
      have dropped : ({} : MasterState).replay s'.log =
          s.orphans.foldl MasterState.applyDropChunk (({} : MasterState).replay s.log) := by
        rw [log, MasterState.replay_append, MasterState.replay, List.foldl_map]
        rfl
      rw [dropped, MasterState.getElem?_drops, if_neg kept]
      exact replayed.level other m found shown

theorem Replayed.restarted (sound : Sound s) {kept : Nat}
    (state : s'.state = (({} : MasterState).replay (s.log.take kept)).recomputeRefcounts)
    (log : s'.log = s.log.take kept) :
    Young s'.state.chunks ∧ Level s'.state (({} : MasterState).replay s'.log) := by
  have fits := sound.accounted.prefixes (s.log.take kept) (List.take_prefix _ _)
  rw [recompute_fits fits] at state
  have looked : ∀ (other : Handle) m, s'.state.chunks[other]? = some m →
      ∃ n, (({} : MasterState).replay (s.log.take kept)).chunks[other]? = some n ∧
        n.pending = m.pending ∧ n.version = m.version := by
    intro other m found
    rw [state] at found
    obtain ⟨n, there, rfl⟩ :=
      Option.map_eq_some_iff.mp (MasterState.getElem?_recount.symm.trans found)
    exact ⟨n, there, rfl, rfl⟩
  refine ⟨fun other m found pending => ?_, fun other m found _ => ?_⟩
  · obtain ⟨n, there, same, _⟩ := looked other m found
    exact absurd (standing_eq_some.mpr ⟨n, there, same.trans pending⟩)
      ((Mirrors.replayed _).not_pending other)
  · obtain ⟨n, there, _, version⟩ := looked other m found
    rw [log]
    exact ⟨n, there, version⟩

theorem Replayed.written (sound : Sound s) (sound' : Sound s') (replayed : Replayed s)
    (shown : reportsShown s a = true) (wrote : Wrote cfg s a s') :
    Young s'.state.chunks ∧ Level s'.state (({} : MasterState).replay s'.log) := by
  cases wrote with
  | quiet kept leases =>
      refine replayed.kept kept (by simp) fun handle m m' found _ found' none => ?_
      exact (leases handle m m' found found').stays none
  | @heard id req server time _ kept leases =>
      refine replayed.kept kept (fun handle version member pending => ?_)
        fun handle m m' found _ found' none => (leases handle m m' found found').stays none
      obtain ⟨m, found, isPending⟩ := standing_eq_some.mp pending
      obtain ⟨reported, above⟩ := heartBeat_records req s.state.chunks member
      have allowed := List.all_eq_true.mp shown (handle, version) reported
      simp only [found, isPending, Bool.not_true, Bool.false_or, decide_eq_true_eq] at allowed
      exact absurd (above m found) (Nat.not_lt.mpr allowed)
  | @committed handle client round attempt m _ grant found chunks kept =>
      have granted := (replayed.grants handle _ grant rfl).2
      refine replayed.kept kept (fun other version member => ?_)
        fun other n n' there pending there' none => ?_
      · cases List.mem_singleton.mp member
        exact granted
      · rw [chunks, getElem?_insert] at there'
        split at there'
        · rename_i same
          exact absurd (standing_eq_some.mpr ⟨n, same ▸ there, pending⟩) granted
        · rw [← Option.some.inj (there.symm.trans there')]
          exact none
  | allocated call fresh none calls state log => exact replayed.allocated sound state log
  | abandoned call creating calls state log => exact replayed.abandoned state log
  | dropped state log => exact replayed.dropped state log
  | restarted calls state log => exact Replayed.restarted sound state log
  | created valid free isOpen state log =>
      exact replayed.mild log (state ▸ .refl) fun _ => .refl
  | hidden valid free there shown state log =>
      exact replayed.mild log (state ▸ mild_rename) fun _ => mild_rename
  | removed free there isRemoval state log =>
      exact replayed.mild log (state ▸ Mirrors.mild_applyRemove) fun _ => Mirrors.mild_applyRemove
  | renamed call kind ready calls state log =>
      exact replayed.mild log (state ▸ mild_rename) fun _ => mild_rename
  | @snapshotted id m _ call kind ready waited calls state log =>
      have reset : Mild s.state.chunks
          (m.handles.foldl (resetInvalid cfg s.now) s.state.chunks) := mild_resetInvalid
      refine replayed.mild log (reset.trans ?_) fun _ => Mirrors.mild_applySnapshot
      rw [state]
      exact Mirrors.mild_applySnapshot (s := { s.state with
        chunks := m.handles.foldl (resetInvalid cfg s.now) s.state.chunks })
  | @replaced _ ok f _ fresh _ _ _ call phase calls state log =>
      have gives : MasterState.Gives (s.located fresh ok) s'.state fresh := by
        rw [state]
        exact MasterState.gives_applyReplaceChunk
      exact replayed.given sound sound' call (creating_find phase) log gives fun _ =>
        MasterState.gives_applyReplaceChunk
  | @added _ ok _ _ handle _ _ call calls state log =>
      have gives : MasterState.Gives (s.located handle ok) s'.state handle := by
        rw [state]
        exact MasterState.gives_applyAddChunk
      exact replayed.given sound sound' call rfl log gives fun _ => MasterState.gives_applyAddChunk

theorem Replayed.preserved (sound : Sound s) (sound' : Sound s') (replayed : Replayed s)
    (shown : reportsShown s a = true) (wrote : Wrote cfg s a s') (turn : Turn cfg s s') :
    Replayed s' := by
  obtain ⟨young, level⟩ := replayed.written sound sound' shown wrote
  refine ⟨young, level, ?_⟩
  rcases sound.accounted.onward wrote with onward | ⟨_, gone⟩
  · exact replayed.grants_turn sound turn onward
  · intro handle g found
    rw [gone] at found
    simp at found

theorem replayed_of_allowed (reachable : Reachable (step cfg) Initial
    (fun s a => orderly s a = true ∧ reportsShown s a = true) s) : Sound s ∧ Replayed s := by
  have sure : ∀ s, Reachable (step cfg) Initial
      (fun s a => orderly s a = true ∧ reportsShown s a = true) s → Sound s :=
    fun s before => sound_of_orderly (before.mono fun _ _ allowed => allowed.1)
  refine ⟨sure s reachable, reachable.invariant_over sure (fun s initial => ?_) ?_⟩
  · subst initial
    refine ⟨fun handle m found => ?_, fun handle m found => ?_, fun handle g found => ?_⟩ <;>
      simp at found
  · intro s a s' sound replayed allowed taken
    obtain ⟨wrote, turn⟩ := act_section taken
    have silent : Replayed { s with answer := none } :=
      ⟨replayed.young, replayed.level, replayed.grants⟩
    exact silent.preserved sound.silent (sound.silent.preserved allowed.1 wrote turn) allowed.2
      wrote turn

end

/-- The second state has the same files, next handle and chunks that are not pending, these with the
same versions and refcounts. -/
structure Reproduces (s t : MasterState) : Prop where
  files : t.files = s.files
  nextHandle : t.nextHandle = s.nextHandle
  chunk : ∀ (handle : Handle) m, s.chunks[handle]? = some m → m.pending = false →
    ∃ m', t.chunks[handle]? = some m' ∧ m'.version = m.version ∧ m'.refcount = m.refcount
  only : ∀ (handle : Handle) m', t.chunks[handle]? = some m' →
    ∃ m, s.chunks[handle]? = some m ∧ m.pending = false

/-- Replay of the whole log reproduces the live state. -/
theorem reproduces_of_allowed {cfg : Config} {s : Live} (reachable : Reachable (step cfg) Initial
    (fun s a => orderly s a = true ∧ reportsShown s a = true) s) :
    Reproduces s.state (({} : MasterState).replay s.log).recomputeRefcounts := by
  obtain ⟨sound, replayed⟩ := replayed_of_allowed reachable
  have mirrors := sound.accounted.mirrors
  rw [recompute_fits (sound.accounted.fits.of_mirrors mirrors)]
  refine ⟨mirrors.files.symm, mirrors.nextHandle.symm, fun handle m found shown => ?_,
    fun handle m' found' => ?_⟩
  · obtain ⟨n, there, version⟩ := replayed.level handle m found shown
    refine ⟨_, MasterState.getElem?_recount.trans (congrArg _ there), version, ?_⟩
    show references (({} : MasterState).replay s.log).files handle = m.refcount
    rw [sound.accounted.counted.exact handle m found, mirrors.files]
  · obtain ⟨n, there, _⟩ :=
      Option.map_eq_some_iff.mp (MasterState.getElem?_recount.symm.trans found')
    have standing := mirrors.chunks handle
    rw [ChunkTable.standing, there] at standing
    obtain ⟨here, shown⟩ := Option.filter_eq_some_iff.mp standing.symm
    obtain ⟨m, found, isPending⟩ := standing_eq_some.mp here
    exact ⟨m, found, isPending.trans (by simpa using shown)⟩

/-- The chunk of an `AddChunk` in progress is reported at version 5. -/
def earlyReport : List Action :=
  [.create 0 fileA, .flush 1, .done 0, .addChunk 1 fileA 0, .alloc 1, .flush 2, .touch 2 serverP,
    .hear 2 { chunks := [(1, 5)] }, .endAdd 1 [serverP]]

theorem reproduces_fails :
    ∃ s, Reachable (step {}) Initial (fun _ _ => True) s ∧
      ¬ Reproduces s.state (({} : MasterState).replay s.log).recomputeRefcounts := by
  obtain ⟨s, ran⟩ := Option.isSome_iff_exists.mp
    (by decide +kernel : (run (step {}) {} earlyReport).isSome = true)
  have both : (run (step {}) {} earlyReport).all (fun s =>
      (s.state.chunks[1]?).any (fun m => !m.pending && m.version = 5) &&
      ((({} : MasterState).replay s.log).recomputeRefcounts.chunks[1]?).any (·.version = 1)) =
        true := by
    decide +kernel
  simp only [ran, Option.all_some, Bool.and_eq_true, Option.any_eq_true, Bool.not_eq_true',
    decide_eq_true_eq] at both
  obtain ⟨⟨m, found, shown, five⟩, n, there, one⟩ := both
  refine ⟨s, reachable_run_true rfl ran, fun reproduces => ?_⟩
  obtain ⟨n', there', version, _⟩ := reproduces.chunk 1 m found shown
  obtain rfl := Option.some.inj (there.symm.trans there')
  rw [one, five] at version
  cases version

/-- A copy-on-write with its grant, and a report of the copy at a higher version. -/
def lateReport : List Action :=
  soleCopy ++ [.touch 10 serverP, .hear 10 { chunks := [(2, 7)] }]

theorem reproduces_late :
    ∃ s, run (step {}) {} lateReport = some s ∧
      Reproduces s.state (({} : MasterState).replay s.log).recomputeRefcounts := by
  obtain ⟨s, ran⟩ := Option.isSome_iff_exists.mp
    (by decide +kernel : (run (step {}) {} lateReport).isSome = true)
  exact ⟨s, ran, reproduces_of_allowed (reachable_run rfl (by decide +kernel) ran)⟩

end Live

end Gfs.Master
