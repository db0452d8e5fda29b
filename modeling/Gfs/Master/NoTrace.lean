import Gfs.Master.Apart
import Gfs.Master.ChunkIndex

/-!
# A chunk that could not be created

While `AddChunk` or `CopyOnWrite` waits for the chunkservers, its new chunk is in the table and
heartbeats may find it there. Beside the same heartbeats without the call, the states differ at that
chunk only, and so do the logs.
-/

namespace Gfs.Master
open Lib.Maps Lib.Transition

def Action.isHeartBeat : Action → Bool
  | .touch .. | .hear .. | .sweep _ | .sweepDead _ | .advance _ => true
  | _ => false

/-- The sections of an `AddChunk` or a `FindLeaseHolder` up to its refusal, and the flusher's. -/
def Action.isOwn (id : Nat) : Action → Bool
  | .attempt id' | .copyOnWrite id' | .alloc id' | .endCopy id' _ | .decideLease id' | .wake id'
  | .endAdd id' _ => id' = id
  | .flush _ => true
  | _ => false

def Action.allocates (id : Nat) : Action → Bool
  | .alloc id' => id' = id
  | _ => false

/-- The call may still answer `NO_REPLICAS`. -/
def Task.mayRefuse : Task → Bool
  | .find f => match f.phase with
    | .attempt | .copyOnWrite _ | .alloc .. | .copying .. | .decide _ | .parked _ => true
    | _ => false
  | .add .. => true
  | _ => false

namespace Live

/-- The call `id` answers `NO_REPLICAS` in this section; `CopyOnWrite` may return 0 before it has a
handle. -/
inductive Refuses (cfg : Config) (id : Nat) (t : Live) : Action → Prop
  | add {ok : List ServerId} : enough cfg ok = false → Refuses cfg id t (.endAdd id ok)
  | copy {ok : List ServerId} : enough cfg ok = false → Refuses cfg id t (.endCopy id ok)
  | early : id ∉ t.calls → Refuses cfg id t (.copyOnWrite id)

/-- The handle that the call allocates, if it does. -/
def abandoned (id : Nat) (s : Live) (actions : List Action) : Option Handle :=
  if actions.any (Action.allocates id) then some s.state.nextHandle else none

/-- The first state is what the second one would be without the call, but for a larger next handle,
and so is what recovery makes of the logs. -/
structure NoTrace (gone : Option Handle) (t t' : Live) : Prop where
  state : SameBut gone t.state t'.state
  index : ∀ handle, gone = some handle → ∀ table : IndexedTable, table.Mirrors →
    table.chunks = t.state.chunks → ∀ server, handle ∉ table.heldBy server
  log : SameBut gone (recovered t.log) (recovered t'.log)
  prefixes : ∀ kept, ∃ kept',
    SameBut gone (recovered (t.log.take kept)) (recovered (t'.log.take kept'))

/-- `u` has the call in progress, `v` does without it; `s` is where both begin. -/
structure Beside (id : Nat) (gone : Option Handle) (s u v : Live) : Prop where
  call : ∃ task, u.calls[id]? = some task ∧ task.mayRefuse = true ∧ task.creating = gone
  calls : ∀ other, other ≠ id → u.calls[other]? = v.calls[other]?
  without : v.calls[id]? = none
  registry : u.registry = v.registry
  now : u.now = v.now
  files : u.state.files = v.state.files
  chunks : u.state.chunks.Off gone v.state.chunks
  nextHandle : v.state.nextHandle ≤ u.state.nextHandle
  untouched : gone = none → u.state.nextHandle = v.state.nextHandle
  log : Logs gone u.log v.log
  handles : ∀ handle : Handle, handle ∈ v.state.chunks ↔ handle ∈ s.state.chunks
  start : v.state.nextHandle = s.state.nextHandle

/-- The call is over or will not answer `NO_REPLICAS`. -/
def Served (id : Nat) (u : Live) : Prop :=
  ∀ task, u.calls[id]? = some task → task.mayRefuse = false

section
variable {cfg : Config} {s t u u' v w : Live} {a : Action} {id other : Nat} {gone : Option Handle}
  {task : Task}

theorem isFree_nil : s.isFree [] = true := by
  simp [isFree, LockTable.compatible]

theorem Beside.silent (beside : Beside id gone s u v) :
    Beside id gone s { u with answer := none } { v with answer := none } :=
  ⟨beside.call, beside.calls, beside.without, beside.registry, beside.now, beside.files,
    beside.chunks, beside.nextHandle, beside.untouched, beside.log, beside.handles, beside.start⟩

theorem Beside.setCall (beside : Beside id gone s u v) (mayRefuse : task.mayRefuse = true)
    (creating : task.creating = gone) : Beside id gone s (u.setCall id task) v where
  call := ⟨task, by rw [Live.setCall, getElem?_insert, if_pos rfl], mayRefuse, creating⟩
  calls other different := by
    rw [Live.setCall, getElem?_insert, if_neg (Ne.symm different), beside.calls other different]
  without := beside.without
  registry := beside.registry
  now := beside.now
  files := beside.files
  chunks := beside.chunks
  nextHandle := beside.nextHandle
  untouched := beside.untouched
  log := beside.log
  handles := beside.handles
  start := beside.start

theorem Beside.begins (beside : Beside id gone s u v) (fresh : u.calls[other]? = none)
    (body : Live) :
    other ≠ id ∧ v.begin other [] body = some body := by
  obtain ⟨task, call, -⟩ := beside.call
  have different : other ≠ id := by
    rintro rfl
    exact nomatch fresh.symm.trans call
  have absent : v.calls.contains other = false := by
    rw [← Bool.not_eq_true, Std.ExtTreeMap.contains_iff_mem,
      Std.ExtTreeMap.mem_iff_isSome_getElem?, ← beside.calls other different, fresh]
    exact Bool.false_ne_true
  exact ⟨different, if_pos (by rw [absent, isFree_nil]; rfl)⟩

theorem handles_of_tended {a b : ChunkTable} {records : List LogRecord}
    (tended : Tended a b records) (handle : Handle) : handle ∈ b ↔ handle ∈ a := by
  rw [Std.ExtTreeMap.mem_iff_isSome_getElem?, Std.ExtTreeMap.mem_iff_isSome_getElem?]
  cases found : a[handle]? with
  | none => rw [tended.absent handle found]
  | some m =>
      obtain ⟨m', found', -⟩ := tended.present handle m found
      rw [found']
      rfl

theorem Beside.beat (beside : Beside id gone s u v) (beats : a.isHeartBeat = true)
    (taken : u.act cfg a = some u') : ∃ v', v.act cfg a = some v' ∧ Beside id gone s u' v' := by
  obtain ⟨task, call, mayRefuse, creating⟩ := beside.call
  cases a with
  | touch other server =>
      obtain ⟨fresh, -, rfl⟩ := begin_eq taken
      obtain ⟨different, begun⟩ := beside.begins fresh _
      refine ⟨_, begun, ?_⟩
      refine ⟨⟨task, ?_, mayRefuse, creating⟩, fun third apart => ?_, ?_, ?_, beside.now,
        beside.files, beside.chunks, beside.nextHandle, beside.untouched, beside.log,
        beside.handles, beside.start⟩
      · rw [Live.setCall, getElem?_insert, if_neg different, call]
      · rw [Live.setCall, Live.setCall, getElem?_insert, getElem?_insert, beside.calls third apart,
          beside.now]
      · rw [Live.setCall, getElem?_insert, if_neg different, beside.without]
      · simp only [Live.setCall, beside.registry, beside.now]
  | hear other req =>
      simp only [act, Live.hear] at taken ⊢
      split at taken
      · rename_i server time found
        cases taken
        have different : other ≠ id := by
          rintro rfl
          obtain rfl := Option.some.inj (found.symm.trans call)
          cases mayRefuse
        have off : Heard.Off gone (u.state.chunks.heartBeat cfg time server req)
            (v.state.chunks.heartBeat cfg time server req) := beside.chunks.heartBeat req
        obtain ⟨records, logged, tended, -⟩ : Heard.Goes { chunks := u.state.chunks }
          (u.state.chunks.heartBeat cfg time server req) := heartBeat_goes req _
        obtain ⟨records', logged', tended', -⟩ : Heard.Goes { chunks := v.state.chunks }
          (v.state.chunks.heartBeat cfg time server req) := heartBeat_goes req _
        rw [List.nil_append] at logged logged'
        refine ⟨_, by rw [← beside.calls other different, found], ?_⟩
        refine ⟨⟨task, ?_, mayRefuse, creating⟩, fun third apart => ?_, ?_, beside.registry,
          beside.now, beside.files, off.chunks, beside.nextHandle, beside.untouched,
          beside.log.append ?_ ?_ off.records, fun handle => ?_, beside.start⟩
        · rw [Live.endCall, getElem?_erase, if_neg different, call]
        · rw [Live.endCall, Live.endCall, getElem?_erase, getElem?_erase, beside.calls third apart]
        · rw [Live.endCall, getElem?_erase, if_neg different, beside.without]
        · rw [logged]
          exact fun record member => .inr (tended.bumps record member)
        · rw [logged']
          exact tended'.bumps
        · exact (handles_of_tended tended' handle).trans (beside.handles handle)
      · cases taken
  | sweep other =>
      obtain ⟨fresh, -, rfl⟩ := begin_eq taken
      obtain ⟨different, begun⟩ := beside.begins fresh _
      refine ⟨_, begun, ?_⟩
      refine ⟨⟨task, ?_, mayRefuse, creating⟩, fun third apart => ?_, ?_, ?_, beside.now,
        beside.files, beside.chunks, beside.nextHandle, beside.untouched, beside.log,
        beside.handles, beside.start⟩
      · rw [Live.setCall, getElem?_insert, if_neg different, call]
      · rw [Live.setCall, Live.setCall, getElem?_insert, getElem?_insert, beside.calls third apart,
          beside.now, beside.registry]
      · rw [Live.setCall, getElem?_insert, if_neg different, beside.without]
      · simp only [Live.setCall, beside.registry, beside.now]
  | sweepDead other =>
      simp only [act, Live.sweepDead] at taken ⊢
      split at taken
      · rename_i time dead found
        cases taken
        have different : other ≠ id := by
          rintro rfl
          obtain rfl := Option.some.inj (found.symm.trans call)
          cases mayRefuse
        refine ⟨_, by rw [← beside.calls other different, found], ?_⟩
        refine ⟨⟨task, ?_, mayRefuse, creating⟩, fun third apart => ?_, ?_, beside.registry,
          beside.now, beside.files, beside.chunks.sweepDead dead, beside.nextHandle,
          beside.untouched, beside.log, fun handle => ?_, beside.start⟩
        · rw [Live.endCall, getElem?_erase, if_neg different, call]
        · rw [Live.endCall, Live.endCall, getElem?_erase, getElem?_erase, beside.calls third apart]
        · rw [Live.endCall, getElem?_erase, if_neg different, beside.without]
        · exact (handles_of_tended (sweepDead_tended dead v.state.chunks).1 handle).trans
            (beside.handles handle)
      · cases taken
  | advance passed =>
      simp only [act, Live.advance] at taken ⊢
      split at taken
      · rename_i forward
        cases taken
        refine ⟨_, if_pos forward, ?_⟩
        exact ⟨⟨task, call, mayRefuse, creating⟩, beside.calls, beside.without, beside.registry,
          congrArg (· + passed) beside.now, beside.files, beside.chunks, beside.nextHandle,
          beside.untouched, beside.log, beside.handles, beside.start⟩
      · cases taken
  | _ => cases beats

theorem served_endCall : Served id (s.endCall id) := by
  intro task found
  simp [Live.endCall] at found

theorem served_setCall (served : task.mayRefuse = false) : Served id (s.setCall id task) := by
  intro task' found
  rw [Live.setCall, getElem?_insert, if_pos rfl] at found
  rwa [← Option.some.inj found]

theorem off_allocated {chunks : ChunkTable} {handle : Handle} :
    ChunkTable.Off (some handle)
      ((chunks.create handle 1).modify handle fun m => { m with pending := true }) chunks := by
  refine (ChunkTable.off_modify rfl).trans fun other different => ?_
  rw [ChunkTable.create, Std.ExtTreeMap.getElem?_insertIfNew, if_neg]
  rintro ⟨same, -⟩
  exact different (congrArg some (Std.LawfulEqOrd.eq_of_compare same))

theorem Beside.allocated (beside : Beside id none s u v) (mayRefuse : task.mayRefuse = true)
    (creating : task.creating = some u.state.nextHandle) :
    Beside id (some s.state.nextHandle) s (u.allocHandle.setCall id task) v := by
  have next : u.state.nextHandle = s.state.nextHandle := (beside.untouched rfl).trans beside.start
  refine ⟨⟨task, by rw [Live.setCall, getElem?_insert, if_pos rfl], mayRefuse, next ▸ creating⟩,
    fun other different => ?_, beside.without, beside.registry, beside.now, beside.files, ?_, ?_,
    (fun none => by cases none), ?_, beside.handles, beside.start⟩
  · rw [Live.setCall, getElem?_insert, if_neg (Ne.symm different)]
    exact beside.calls other different
  · rw [← next]
    refine off_allocated.trans fun other different => ?_
    exact beside.chunks other (Option.some_ne_none _).symm
  · exact Nat.le_trans beside.nextHandle (Nat.le_max_left _ _)
  · obtain ⟨base, records, records', bumps, raises, alike, logged, logged'⟩ := beside.log
    have bare : ∀ records, others none records = records := by
      intro records
      refine List.filter_eq_self.mpr fun record _ => ?_
      cases record <;> rfl
    rw [bare, bare] at alike
    subst alike
    refine ⟨u.log, [.allocHandle u.state.nextHandle], [], ?_, by simp, ?_, rfl, ?_⟩
    · intro record member
      exact .inl (by simp [List.mem_singleton.mp member, LogRecord.isAbout, next])
    · simp [others, LogRecord.isAbout, next]
    · rw [List.append_nil, logged, logged']

theorem creating_of_phase {f : Find} : (Task.find f).creating = match f.phase with
    | .copying _ fresh _ _ => some fresh
    | _ => none := by
  cases f with
  | mk path index phase => cases phase <;> rfl

inductive OwnStep (id : Nat) (u : Live) (task : Task) : Action → Live → Prop
  | served {a : Action} {u' : Live} : Served id u' → OwnStep id u task a u'
  | onward {a : Action} {task' : Task} : a.allocates id = false → task'.mayRefuse = true →
      task'.creating = task.creating → OwnStep id u task a (u.setCall id task')
  | allocated {task' : Task} : task.creating = none → task'.mayRefuse = true →
      task'.creating = some u.state.nextHandle →
      OwnStep id u task (.alloc id) (u.allocHandle.setCall id task')

theorem own_cases (own : a.isOwn id = true) (taken : u.act cfg a = some u') :
    (∃ count, a = .flush count ∧ u' = { u with flushed := count }) ∨
      ∃ task, u.calls[id]? = some task ∧ task.mayRefuse = true ∧ OwnStep id u task a u' := by
  cases a with
  | flush count =>
      simp only [act, Live.flush] at taken
      split at taken
      · cases taken
        exact .inl ⟨count, rfl, rfl⟩
      · cases taken
  | attempt other =>
      obtain rfl : other = id := by simpa [Action.isOwn] using own
      simp only [act, Live.attempt] at taken
      split at taken
      · rename_i f found
        split at taken
        · rename_i phase
          have idle : (Task.find f).creating = none := by rw [creating_of_phase, phase]
          refine .inr ⟨_, found, by simp only [Task.mayRefuse, phase], ?_⟩
          split at taken
          · cases taken
            exact .served served_endCall
          · split at taken
            · cases taken
              exact .served served_endCall
            · rename_i m _
              cases taken
              by_cases shared : 1 < m.refcount
              · rw [if_pos shared]
                exact .onward rfl rfl idle.symm
              · rw [if_neg shared]
                exact .onward rfl rfl idle.symm
        · cases taken
      · cases taken
  | copyOnWrite other =>
      obtain rfl : other = id := by simpa [Action.isOwn] using own
      simp only [act, Live.copyOnWrite] at taken
      split at taken
      · rename_i f found
        split at taken
        · rename_i old phase
          have idle : (Task.find f).creating = none := by rw [creating_of_phase, phase]
          have copiedTo : ∀ handle, OwnStep other u (.find f) (.copyOnWrite other)
              (u.copiedTo other f handle) := by
            intro handle
            unfold Live.copiedTo
            split
            · exact .served served_endCall
            · exact .onward rfl rfl idle.symm
          refine .inr ⟨_, found, by simp only [Task.mayRefuse, phase], ?_⟩
          split at taken
          · cases taken
          · split at taken
            · cases taken
              exact .served served_endCall
            · split at taken
              · cases taken
                exact copiedTo _
              · split at taken
                · cases taken
                  exact .served served_endCall
                · split at taken
                  · cases taken
                    exact copiedTo _
                  · cases taken
                    exact .onward rfl rfl idle.symm
        · cases taken
      · cases taken
  | alloc other =>
      obtain rfl : other = id := by simpa [Action.isOwn] using own
      simp only [act, Live.alloc] at taken
      split at taken
      · rename_i f found
        split at taken
        · rename_i phase
          have idle : (Task.find f).creating = none := by rw [creating_of_phase, phase]
          cases taken
          exact .inr ⟨_, found, by simp only [Task.mayRefuse, phase], .allocated idle rfl rfl⟩
        · cases taken
      · rename_i found
        cases taken
        exact .inr ⟨_, found, rfl, .allocated rfl rfl rfl⟩
      · cases taken
  | endCopy other ok =>
      obtain rfl : other = id := by simpa [Action.isOwn] using own
      simp only [act, Live.endCopy] at taken
      split at taken
      · rename_i f found
        split at taken
        · rename_i phase
          refine .inr ⟨_, found, by simp only [Task.mayRefuse, phase], ?_⟩
          split at taken
          · split at taken
            · cases taken
              exact .served (served_setCall rfl)
            · cases taken
              exact .served served_endCall
          · cases taken
        · cases taken
      · cases taken
  | decideLease other =>
      obtain rfl : other = id := by simpa [Action.isOwn] using own
      simp only [act, Live.decideLease] at taken
      split at taken
      · rename_i f found
        split at taken
        · rename_i phase
          have idle : (Task.find f).creating = none := by rw [creating_of_phase, phase]
          refine .inr ⟨_, found, by simp only [Task.mayRefuse, phase], ?_⟩
          split at taken
          · cases taken
            exact .served served_endCall
          · split at taken
            · cases taken
              exact .served served_endCall
            · split at taken
              · cases taken
                exact .served (served_setCall rfl)
              · split at taken
                · cases taken
                  exact .onward rfl rfl idle.symm
                · cases taken
                  exact .served (served_setCall rfl)
        · cases taken
      · cases taken
  | wake other =>
      obtain rfl : other = id := by simpa [Action.isOwn] using own
      simp only [act, Live.wake] at taken
      split at taken
      · rename_i f found
        split at taken
        · rename_i phase
          have idle : (Task.find f).creating = none := by rw [creating_of_phase, phase]
          refine .inr ⟨_, found, by simp only [Task.mayRefuse, phase], ?_⟩
          split at taken
          · cases taken
          · cases taken
            exact .onward rfl rfl idle.symm
        · cases taken
      · cases taken
  | endAdd other ok =>
      obtain rfl : other = id := by simpa [Action.isOwn] using own
      simp only [act, Live.endAdd] at taken
      split at taken
      · rename_i found
        refine .inr ⟨_, found, rfl, ?_⟩
        split at taken
        · split at taken
          · cases taken
            exact .served (served_setCall rfl)
          · cases taken
            exact .served served_endCall
        · cases taken
      · cases taken
  | _ => cases own

theorem Beside.own (beside : Beside id gone s u v) (own : a.isOwn id = true)
    (taken : u.act cfg a = some u') : Served id u' ∨
      Beside id (if a.allocates id then some s.state.nextHandle else gone) s u' v := by
  obtain ⟨task, call, mayRefuse, creating⟩ := beside.call
  rcases own_cases own taken with ⟨count, rfl, rfl⟩ | ⟨task', call', -, turned⟩
  · exact .inr ⟨⟨task, call, mayRefuse, creating⟩, beside.calls, beside.without, beside.registry,
      beside.now, beside.files, beside.chunks, beside.nextHandle, beside.untouched, beside.log,
      beside.handles, beside.start⟩
  · obtain rfl := Option.some.inj (call'.symm.trans call)
    cases turned with
    | served served => exact .inl served
    | onward plain mayRefuse' same =>
        rw [plain, if_neg Bool.false_ne_true]
        exact .inr (beside.setCall mayRefuse' (same.trans creating))
    | allocated idle mayRefuse' fresh =>
        obtain rfl := creating.symm.trans idle
        rw [if_pos (by simp [Action.allocates])]
        exact .inr (beside.allocated mayRefuse' fresh)

theorem served_insert (served : Served id u) (plain : task.mayRefuse = false)
    (calls : u'.calls = u.calls.insert other task) : Served id u' := by
  intro task' found
  rw [calls, getElem?_insert] at found
  split at found
  · rwa [← Option.some.inj found]
  · exact served task' found

theorem served_erase (served : Served id u) (calls : u'.calls = u.calls.erase other) :
    Served id u' := by
  intro task' found
  rw [calls, getElem?_erase] at found
  split at found
  · cases found
  · exact served task' found

theorem served_beat (served : Served id u) (beats : a.isHeartBeat = true)
    (taken : u.act cfg a = some u') : Served id u' := by
  cases a with
  | touch other server =>
      obtain ⟨-, -, rfl⟩ := begin_eq taken
      exact served_insert served rfl rfl
  | hear other req =>
      simp only [act, Live.hear] at taken
      split at taken
      · cases taken
        exact served_erase served rfl
      · cases taken
  | sweep other =>
      obtain ⟨-, -, rfl⟩ := begin_eq taken
      exact served_insert served rfl rfl
  | sweepDead other =>
      simp only [act, Live.sweepDead] at taken
      split at taken
      · cases taken
        exact served_erase served rfl
      · cases taken
  | advance passed =>
      simp only [act, Live.advance] at taken
      split at taken
      · cases taken
        exact served
      · cases taken
  | _ => cases beats

theorem served_own (served : Served id u) (own : a.isOwn id = true)
    (taken : u.act cfg a = some u') : Served id u' := by
  rcases own_cases own taken with ⟨count, rfl, rfl⟩ | ⟨task, call, mayRefuse, -⟩
  · exact served
  · rw [served task call] at mayRefuse
    cases mayRefuse

/-- A run of the call's sections with heartbeats in between, beside the heartbeats alone. -/
theorem Beside.run {actions : List Action} (beside : Beside id gone s u v)
    (between : ∀ a ∈ actions, a.isHeartBeat = true ∨ a.isOwn id = true)
    (ran : Lib.Transition.run (step cfg) u actions = some w) : Served id w ∨
      ∃ v', Lib.Transition.run (step cfg) v (actions.filter Action.isHeartBeat) = some v' ∧
        Beside id (if actions.any (Action.allocates id) then some s.state.nextHandle else gone)
          s w v' := by
  have lost : ∀ (actions : List Action) (u : Live), Served id u →
      (∀ a ∈ actions, a.isHeartBeat = true ∨ a.isOwn id = true) →
      Lib.Transition.run (step cfg) u actions = some w → Served id w := by
    intro actions
    induction actions with
    | nil =>
        intro u served _ ran
        cases ran
        exact served
    | cons a actions ih =>
        intro u served between ran
        obtain ⟨u', taken, ran⟩ := Option.bind_eq_some_iff.mp ran
        refine ih u' ?_ (fun b member => between b (List.mem_cons_of_mem _ member)) ran
        have served : Served id { u with answer := none } := served
        rcases between a List.mem_cons_self with beats | own
        · exact served_beat served beats taken
        · exact served_own served own taken
  induction actions generalizing u v gone with
  | nil =>
      cases ran
      exact .inr ⟨v, rfl, beside⟩
  | cons a actions ih =>
      obtain ⟨u', taken, ran⟩ := Option.bind_eq_some_iff.mp ran
      have rest := fun b member => between b (List.mem_cons_of_mem _ member)
      rcases between a List.mem_cons_self with beats | own
      · obtain ⟨v', alone, beside'⟩ := beside.silent.beat beats taken
        have plain : a.allocates id = false := by
          cases a <;> first | rfl | cases beats
        rw [List.filter_cons_of_pos beats, List.any_cons, plain, Bool.false_or]
        refine (ih beside' rest ran).imp_right fun ⟨w', ran', final⟩ => ⟨w', ?_, final⟩
        exact Option.bind_eq_some_iff.mpr ⟨v', alone, ran'⟩
      · have skips : a.isHeartBeat = false := by
          cases a <;> first | rfl | cases own
        rw [List.filter_cons_of_neg (by simp [skips]), List.any_cons]
        rcases beside.silent.own own taken with served | beside'
        · exact .inl (lost actions u' served rest ran)
        · have beside' : Beside id _ s u' v := ⟨beside'.call, beside'.calls, beside'.without,
            beside'.registry, beside'.now, beside'.files, beside'.chunks, beside'.nextHandle,
            beside'.untouched, beside'.log, beside'.handles, beside'.start⟩
          refine (ih beside' rest ran).imp_right fun ⟨w', ran', final⟩ => ⟨w', ran', ?_⟩
          cases h : a.allocates id <;> cases h' : actions.any (Action.allocates id) <;>
            simpa [h, h'] using final

theorem beside_of_begun {start : Action} {path : Str} {index : Nat}
    (starts : start = .addChunk id path index ∨ start = .findLeaseHolder id path index)
    (idle : s.calls[id]? = none) (asked : step cfg s start = some u) (accepted : id ∈ u.calls) :
    Beside id none s u s := by
  have absent : id ∉ s.calls := by
    rw [Std.ExtTreeMap.mem_iff_isSome_getElem?, idle]
    exact Bool.false_ne_true
  suffices ∃ task : Task, task.mayRefuse = true ∧ task.creating = none ∧
      u = { s with answer := none }.setCall id task by
    obtain ⟨task, mayRefuse, creating, rfl⟩ := this
    have silent : Beside id none s ({ s with answer := none }.setCall id task)
        { s with answer := none } := by
      refine ⟨⟨task, by rw [Live.setCall, getElem?_insert, if_pos rfl], mayRefuse, creating⟩,
        fun other different => ?_, idle, rfl, rfl, rfl, .refl, Nat.le_refl _, fun _ => rfl,
        ⟨s.log, [], [], by simp, by simp, rfl, (List.append_nil _).symm, (List.append_nil _).symm⟩,
        fun _ => Iff.rfl, rfl⟩
      rw [Live.setCall, getElem?_insert, if_neg (Ne.symm different)]
    exact ⟨silent.call, silent.calls, silent.without, silent.registry, silent.now, silent.files,
      silent.chunks, silent.nextHandle, silent.untouched, silent.log, silent.handles, silent.start⟩
  rcases starts with rfl | rfl
  · simp only [step, act, Live.addChunk] at asked
    split at asked
    · cases asked
      exact absurd accepted absent
    · obtain ⟨-, -, rfl⟩ := begin_eq asked
      split at accepted
      · split at accepted
        · rename_i file found isEnd
          refine ⟨.add path index .alloc, rfl, rfl, ?_⟩
          exact if_pos isEnd
        · exact absurd accepted absent
      · exact absurd accepted absent
  · simp only [step, act, Live.findLeaseHolder] at asked
    split at asked
    · cases asked
      exact absurd accepted absent
    · obtain ⟨-, -, rfl⟩ := begin_eq asked
      exact ⟨.find { path, index }, rfl, rfl, rfl⟩

theorem Beside.refuse {last : Action} (beside : Beside id gone s w v)
    (ended : step cfg w last = some t) (refused : Refuses cfg id t last) :
    t.state.files = w.state.files ∧ t.state.nextHandle = w.state.nextHandle ∧ t.log = w.log ∧
      ∀ handle : Handle, t.state.chunks[handle]? =
        if gone = some handle then none else w.state.chunks[handle]? := by
  obtain ⟨task, call, mayRefuse, creating⟩ := beside.call
  cases refused with
  | @add ok few =>
      simp only [step, act, Live.endAdd] at ended
      split at ended
      · rename_i found
        obtain rfl := Option.some.inj (found.symm.trans call)
        cases creating
        split at ended
        · rw [few, if_neg Bool.false_ne_true] at ended
          cases ended
          refine ⟨rfl, rfl, rfl, fun handle => ?_⟩
          rw [Live.endCall, abandon, getElem?_erase]
          simp only [Task.creating, Option.some.injEq]
        · cases ended
      · cases ended
  | @copy ok few =>
      simp only [step, act, Live.endCopy] at ended
      split at ended
      · rename_i f found
        obtain rfl := Option.some.inj (found.symm.trans call)
        split at ended
        · rename_i phase
          rw [creating_of_phase, phase] at creating
          cases creating
          split at ended
          · rw [few, if_neg Bool.false_ne_true] at ended
            cases ended
            refine ⟨rfl, rfl, rfl, fun handle => ?_⟩
            rw [Live.endCall, abandon, getElem?_erase]
            simp only [Option.some.injEq]
          · cases ended
        · cases ended
      · cases ended
  | early gone' =>
      have same : t.state = w.state ∧ t.log = w.log ∧ gone = none := by
        simp only [step, act, Live.copyOnWrite] at ended
        split at ended
        · rename_i f found
          obtain rfl := Option.some.inj (found.symm.trans call)
          have copiedTo : ∀ handle, (Live.copiedTo { w with answer := none } id f handle).state =
              w.state ∧ (Live.copiedTo { w with answer := none } id f handle).log = w.log := by
            intro handle
            unfold Live.copiedTo
            split <;> exact ⟨rfl, rfl⟩
          split at ended
          · rename_i old phase
            rw [creating_of_phase, phase] at creating
            split at ended
            · cases ended
            · split at ended
              · cases ended
                exact ⟨rfl, rfl, creating.symm⟩
              · split at ended
                · cases ended
                  exact ⟨(copiedTo _).1, (copiedTo _).2, creating.symm⟩
                · split at ended
                  · cases ended
                    exact ⟨rfl, rfl, creating.symm⟩
                  · split at ended
                    · cases ended
                      exact ⟨(copiedTo _).1, (copiedTo _).2, creating.symm⟩
                    · cases ended
                      exact ⟨rfl, rfl, creating.symm⟩
          · cases ended
        · cases ended
      obtain ⟨state, log, none⟩ := same
      rw [state, log, none]
      exact ⟨rfl, rfl, rfl, fun handle => rfl⟩

theorem Beside.refused {last : Action} (beside : Beside id gone s w v)
    (ended : step cfg w last = some t) (refused : Refuses cfg id t last) :
    NoTrace gone t v ↔ ∀ handle, gone = some handle → handle ∉ s.state.chunks := by
  obtain ⟨files, nextHandle, log, looked⟩ := beside.refuse ended refused
  have erased : ∀ handle, gone = some handle → handle ∉ t.state.chunks := by
    intro handle same
    rw [Std.ExtTreeMap.mem_iff_isSome_getElem?, looked, if_pos same]
    exact Bool.false_ne_true
  constructor
  · intro noTrace handle same member
    exact erased handle same
      ((noTrace.state.handles handle).mpr ((beside.handles handle).mpr member))
  · intro absent
    have logs : Logs gone t.log v.log := log ▸ beside.log
    have off : t.state.chunks.Off gone v.state.chunks := by
      intro handle different
      rw [looked, if_neg different, beside.chunks handle different]
    refine ⟨⟨files.trans beside.files, fun handle => ?_, off, ?_⟩,
      fun handle same table mirrors chunks server held => ?_, logs.recovered, fun kept => ?_⟩
    · by_cases same : gone = some handle
      · exact iff_of_false (erased handle same)
          fun member => absent handle same ((beside.handles handle).mp member)
      · rw [Std.ExtTreeMap.mem_iff_isSome_getElem?, Std.ExtTreeMap.mem_iff_isSome_getElem?,
          off handle same]
    · rw [nextHandle]
      exact beside.nextHandle
    · obtain ⟨m, found, -⟩ := (mirrors.held server handle).mp held
      rw [chunks, looked, if_pos same] at found
      cases found
    · obtain ⟨kept', part⟩ := logs.take kept
      exact ⟨kept', part.recovered⟩

end

/-- A call that answers `NO_REPLICAS` leaves what the heartbeats alone would have left, unless its
handle had a chunk already. -/
theorem leavesNoTrace_iff {cfg : Config} {s t u w : Live} {id index : Nat} {path : Str}
    {start last : Action} {between : List Action}
    (starts : start = .addChunk id path index ∨ start = .findLeaseHolder id path index)
    (idle : s.calls[id]? = none) (asked : step cfg s start = some u) (accepted : id ∈ u.calls)
    (allowed : ∀ a ∈ between, a.isHeartBeat = true ∨ a.isOwn id = true)
    (waited : run (step cfg) u between = some w) (ended : step cfg w last = some t)
    (refused : Refuses cfg id t last) :
    ∃ t', run (step cfg) s (between.filter Action.isHeartBeat) = some t' ∧
      (NoTrace (abandoned id s between) t t' ↔
        ∀ handle, abandoned id s between = some handle → handle ∉ s.state.chunks) := by
  have beside := beside_of_begun starts idle asked accepted
  rcases beside.run allowed waited with served | ⟨t', ran, final⟩
  · have own : last.isOwn id = true := by
      cases refused <;> simp [Action.isOwn]
    rcases own_cases own ended with ⟨count, rfl, -⟩ | ⟨task, call, mayRefuse, -⟩
    · cases refused
    · rw [served task call] at mayRefuse
      cases mayRefuse
  · exact ⟨t', ran, final.refused ended refused⟩

/-- The chunk is reported while the chunkservers are to create it. -/
def reportedWait : List Action :=
  [.alloc 1, .touch 2 serverP, .hear 2 { chunks := [(1, 3)] }, .flush 3]

theorem leavesNoTrace_iff_reported :
    ∃ s u w t t', run (step {}) {} [.create 0 fileA, .flush 1, .done 0] = some s ∧
      step {} s (.addChunk 1 fileA 0) = some u ∧ run (step {}) u reportedWait = some w ∧
      step {} w (.endAdd 1 []) = some t ∧
      run (step {}) s [.touch 2 serverP, .hear 2 { chunks := [(1, 3)] }] = some t' ∧
      NoTrace (some 1) t t' := by
  obtain ⟨s, ran⟩ := Option.isSome_iff_exists.mp
    (by decide +kernel : (run (step {}) {} [.create 0 fileA, .flush 1, .done 0]).isSome = true)
  have all : ((run (step {}) {} [.create 0 fileA, .flush 1, .done 0]).bind fun s =>
      (step {} s (.addChunk 1 fileA 0)).bind fun u => (run (step {}) u reportedWait).bind fun w =>
        (step {} w (.endAdd 1 [])).map fun _ => (s.calls.contains 1, u.calls.contains 1,
          s.state.chunks.contains 1, s.state.nextHandle)) = some (false, true, false, 1) := by
    decide +kernel
  rw [ran, Option.bind_some] at all
  obtain ⟨u, asked, all⟩ := Option.bind_eq_some_iff.mp all
  obtain ⟨w, waited, all⟩ := Option.bind_eq_some_iff.mp all
  obtain ⟨t, ended, all⟩ := Option.map_eq_some_iff.mp all
  simp only [Prod.mk.injEq] at all
  obtain ⟨new, accepted, absent, next⟩ := all
  have idle : s.calls[1]? = none := Std.ExtTreeMap.getElem?_eq_none fun there => by
    rw [Std.ExtTreeMap.contains_iff_mem.mpr there] at new
    cases new
  obtain ⟨t', alone, iff⟩ := leavesNoTrace_iff (.inl rfl) idle asked
    (Std.ExtTreeMap.contains_iff_mem.mp accepted)
    (by simp [reportedWait, Action.isHeartBeat, Action.isOwn]) waited ended (.add rfl)
  have handle : abandoned 1 s reportedWait = some 1 := by
    rw [abandoned, next]
    rfl
  rw [handle] at iff
  refine ⟨s, u, w, t, t', ran, asked, waited, ended, alone, iff.mpr fun handle same member => ?_⟩
  cases same
  rw [Std.ExtTreeMap.contains_iff_mem.mpr member] at absent
  cases absent

/-- The master after the handle below the last one was allocated. -/
def nearlyLast : Live where
  state := recovered [.create fileA, .allocHandle (2 ^ 64 - 2)]
  log := [.create fileA, .allocHandle (2 ^ 64 - 2)]
  flushed := 2

/-- The last handle gets a chunk of `/a`. -/
def lastChunk : List Action :=
  [.touch 0 serverP, .hear 0 {}, .addChunk 1 fileA 0, .alloc 1, .flush 3, .endAdd 1 [serverP],
    .flush 4, .done 1]

/-- The next `AddChunk` allocates the handle again, fails and takes the chunk out of the table. -/
theorem leavesNoTrace_fails :
    ∃ s u w t, run (step {}) nearlyLast lastChunk = some s ∧
      step {} s (.addChunk 2 fileA 1) = some u ∧ run (step {}) u [.alloc 2, .flush 5] = some w ∧
      step {} w (.endAdd 2 []) = some t ∧
      run (step {}) s ([.alloc 2, .flush 5].filter Action.isHeartBeat) = some s ∧
      ¬ NoTrace (abandoned 2 s [.alloc 2, .flush 5]) t s := by
  obtain ⟨s, ran⟩ := Option.isSome_iff_exists.mp
    (by decide +kernel : (run (step {}) nearlyLast lastChunk).isSome = true)
  have all : ((run (step {}) nearlyLast lastChunk).bind fun s =>
      (step {} s (.addChunk 2 fileA 1)).bind fun u =>
        (run (step {}) u [.alloc 2, .flush 5]).bind fun w => (step {} w (.endAdd 2 [])).map fun t =>
          (s.state.chunks.contains (2 ^ 64 - 1), t.state.chunks.contains (2 ^ 64 - 1))) =
      some (true, false) := by decide +kernel
  rw [ran, Option.bind_some] at all
  obtain ⟨u, asked, all⟩ := Option.bind_eq_some_iff.mp all
  obtain ⟨w, waited, all⟩ := Option.bind_eq_some_iff.mp all
  obtain ⟨t, ended, all⟩ := Option.map_eq_some_iff.mp all
  simp only [Prod.mk.injEq] at all
  refine ⟨s, u, w, t, ran, asked, waited, ended, rfl, fun noTrace => ?_⟩
  have member := (noTrace.state.handles (2 ^ 64 - 1)).mpr (Std.ExtTreeMap.contains_iff_mem.mp all.1)
  rw [← Std.ExtTreeMap.contains_iff_mem, all.2] at member
  cases member

end Live

end Gfs.Master
