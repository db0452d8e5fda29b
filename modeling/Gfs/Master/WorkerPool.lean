import Gfs.Master.LockWaits

/-!
# The worker pool, the timers and the path locks

Every request of the master is a task of one pool. It takes its path locks on the worker that runs
it, and `Snapshot` and `FindLeaseHolder` may put themselves off with their locks held: a timer posts
the rest of the call to the same pool. The rest of a task's work comes to an end by itself, since it
waits for calls with a deadline only.
-/

namespace Gfs.Master.WorkerPool
open Lib.Transition LockTable

/-- `SnapshotFinish` does not put itself off again, `FindLeaseHolderAttempt` may. -/
inductive Kind
  | plain | snapshot | findLeaseHolder
deriving DecidableEq

/-- `locks` is empty for the requests that lock no path. -/
structure Request where
  kind : Kind
  locks : List LockRequest
deriving DecidableEq

/-- A call that was put off has its `LockSet` with it. -/
inductive Task
  | start (r : Request)
  | resume (r : Request) (set : Nat)
deriving DecidableEq

/-- What a thread of the pool does: `acquiring` and `releasing` are inside the call of the lock table
with this number. -/
inductive Worker
  | idle
  | acquiring (r : Request) (call : Nat)
  | working (r : Request) (set : Nat) (resumed : Bool)
  | releasing (r : Request) (call : Nat)
deriving DecidableEq

structure State where
  workers : List Worker
  locks : LockTable.State := {}
  queue : List Task := []
  timers : List (Request × Nat) := []

def Request.mayDefer (r : Request) (resumed : Bool) : Bool :=
  match r.kind with
  | .plain => false
  | .snapshot => !resumed
  | .findLeaseHolder => true

namespace State

def setWorker (s : State) (w : Nat) (worker : Worker) : State :=
  { s with workers := s.workers.set w worker }

/-- `MasterService::Dispatch`. -/
def dispatch (s : State) (r : Request) : State := { s with queue := s.queue ++ [.start r] }

/-- `TimerQueue::Run` posts a continuation whose time has come. -/
def fire (s : State) (n : Nat) : Option State :=
  match s.timers[n]? with
  | some (r, set) =>
      some { s with timers := s.timers.eraseIdx n, queue := s.queue ++ [.resume r set] }
  | none => none

/-- `WorkerPool::Run` takes the task at the front. -/
def start (s : State) (w : Nat) : Option State :=
  match s.workers[w]?, s.queue with
  | some .idle, .start r :: rest =>
      some { s.setWorker w (.acquiring r s.locks.calls.length) with
        queue := rest
        locks := s.locks.acquire r.locks }
  | some .idle, .resume r set :: rest =>
      some { s.setWorker w (.working r set true) with queue := rest }
  | _, _ => none

def lock (s : State) (w : Nat) : Option State :=
  match s.workers[w]? with
  | some (.acquiring _ call) => (s.locks.lock call).map fun locks => { s with locks }
  | _ => none

def wake (s : State) (w : Nat) : Option State :=
  match s.workers[w]? with
  | some (.acquiring _ call) => (s.locks.wake call).map fun locks => { s with locks }
  | _ => none

/-- `Acquire` returns. -/
def acquired (s : State) (w : Nat) : Option State :=
  match s.workers[w]? with
  | some (.acquiring r call) =>
      (s.locks.finish call).map fun locks =>
        { s.setWorker w (.working r s.locks.sets.length false) with locks }
  | _ => none

/-- `timers_.At`, after which the worker is free. -/
def defer (s : State) (w : Nat) : Option State :=
  match s.workers[w]? with
  | some (.working r set resumed) =>
      if r.mayDefer resumed then
        some { s.setWorker w .idle with timers := s.timers ++ [(r, set)] }
      else none
  | _ => none

def complete (s : State) (w : Nat) : Option State :=
  match s.workers[w]? with
  | some (.working r set _) =>
      (s.locks.release set).map fun locks =>
        { s.setWorker w (.releasing r s.locks.calls.length) with locks }
  | _ => none

def unlock (s : State) (w : Nat) : Option State :=
  match s.workers[w]? with
  | some (.releasing _ call) =>
      (s.locks.unlock call).map fun locks =>
        { s with
          locks
          workers := if locks.calls[call]? = some .ended then s.workers.set w .idle else s.workers }
  | _ => none

end State

inductive Move
  | start | lock | wake | acquired | defer | complete | unlock
deriving DecidableEq

inductive Action
  | dispatch (r : Request)
  | fire (n : Nat)
  | worker (w : Nat) (move : Move)

namespace State

def move (s : State) (w : Nat) : Move → Option State
  | .start => s.start w
  | .lock => s.lock w
  | .wake => s.wake w
  | .acquired => s.acquired w
  | .defer => s.defer w
  | .complete => s.complete w
  | .unlock => s.unlock w

def step (s : State) : Action → Option State
  | .dispatch r => some (s.dispatch r)
  | .fire n => s.fire n
  | .worker w m => s.move w m

/-- A pool of at least two threads and nothing to do. -/
def Initial (s : State) : Prop := ∃ n, 2 ≤ n ∧ s = { workers := List.replicate n .idle }

end State

/-! ## Calls of the lock table and their workers -/

inductive Shape
  | acquire | release | ended
deriving DecidableEq

def shape : Call → Shape
  | .locking _ _ | .waiting _ _ _ _ => .acquire
  | .unlocking _ => .release
  | .ended => .ended

def shapes (locks : LockTable.State) : List Shape := locks.calls.map shape

section
variable {locks locks' : LockTable.State} {c : Nat}

theorem shapes_set {call new : Call} (found : locks.calls[c]? = some call)
    (same : shape new = shape call) : (locks.calls.set c new).map shape = shapes locks := by
  obtain ⟨bound, there⟩ := List.getElem?_eq_some_iff.mp found
  rw [List.map_set, same, ← there, ← List.getElem_map shape]
  · exact List.set_getElem_self _
  · simpa using bound

theorem shapes_turn {got todo : List LockRequest} {r : LockRequest} {e : Entry} {call : Call}
    (found : locks.calls[c]? = some call) (acquires : shape call = .acquire) :
    shapes (locks.turn c got r todo e) = shapes locks ∧
      (locks.turn c got r todo e).sets = locks.sets := by
  unfold LockTable.State.turn
  split
  · exact ⟨shapes_set found acquires.symm, rfl⟩
  · exact ⟨shapes_set found acquires.symm, rfl⟩

theorem shapes_lock (taken : locks.lock c = some locks') :
    shapes locks' = shapes locks ∧ locks'.sets = locks.sets := by
  unfold LockTable.State.lock at taken
  split at taken
  · rename_i found
    cases taken
    exact shapes_turn found rfl
  · cases taken

theorem shapes_wake (taken : locks.wake c = some locks') :
    shapes locks' = shapes locks ∧ locks'.sets = locks.sets := by
  unfold LockTable.State.wake at taken
  split at taken
  · rename_i found
    obtain ⟨e, _, rfl⟩ := Option.map_eq_some_iff.mp taken
    exact shapes_turn found rfl
  · cases taken

theorem shapes_finish (taken : locks.finish c = some locks') :
    shapes locks' = (shapes locks).set c .ended ∧ ∃ got, locks'.sets = locks.sets ++ [got] := by
  unfold LockTable.State.finish at taken
  split at taken
  · rename_i got found
    cases taken
    exact ⟨List.map_set, got, rfl⟩
  · cases taken

theorem shapes_release {k : Nat} (taken : locks.release k = some locks') :
    shapes locks' = shapes locks ++ [.release] ∧ locks'.sets = locks.sets.set k [] := by
  unfold LockTable.State.release at taken
  split at taken
  · cases taken
    exact ⟨List.map_append, rfl⟩
  · cases taken

theorem shapes_unlock (taken : locks.unlock c = some locks') :
    locks'.sets = locks.sets ∧
      ((locks'.calls[c]? = some .ended ∧ shapes locks' = (shapes locks).set c .ended) ∨
        locks'.calls[c]? ≠ some .ended ∧ shapes locks' = shapes locks) := by
  unfold LockTable.State.unlock at taken
  split at taken
  · rename_i left found
    have bound : c < locks.calls.length := (List.getElem?_eq_some_iff.mp found).1
    split at taken
    · cases taken
      exact ⟨rfl, .inl ⟨List.getElem?_set_self bound, List.map_set⟩⟩
    · rename_i r last
      cases taken
      unfold LockTable.State.unlockOne
      split
      · refine ⟨rfl, .inr ⟨?_, shapes_set found rfl⟩⟩
        rw [List.getElem?_set_self bound]
        exact nofun
      · refine ⟨rfl, .inr ⟨?_, ?_⟩⟩
        · rw [List.getElem?_map, List.getElem?_set_self bound]
          exact nofun
        · have notified : ∀ call : Call, shape (call.notify r.path) = shape call := by
            intro call
            cases call <;> rfl
          have kept : (locks.calls.set c (.unlocking left.dropLast)).map shape = shapes locks :=
            shapes_set found rfl
          rw [← kept, shapes, List.map_map]
          exact List.map_congr_left fun call _ => notified call
  · cases taken

end

def Worker.call? : Worker → Option (Nat × Shape)
  | .acquiring _ call => some (call, .acquire)
  | .releasing _ call => some (call, .release)
  | _ => none

/-- Every call that is in progress is that of one worker. -/
structure Paired (workers : List Worker) (shapes : List Shape) : Prop where
  agrees : ∀ (w : Nat) (worker : Worker) (call : Nat) (sh : Shape), workers[w]? = some worker →
    worker.call? = some (call, sh) → shapes[call]? = some sh
  distinct : ∀ (w w' : Nat) (worker worker' : Worker) (call : Nat) (sh sh' : Shape),
    workers[w]? = some worker → workers[w']? = some worker' → worker.call? = some (call, sh) →
    worker'.call? = some (call, sh') → w = w'
  covered : ∀ (call : Nat) (sh : Shape), shapes[call]? = some sh → sh = .ended ∨
    ∃ (w : Nat) (worker : Worker), workers[w]? = some worker ∧ worker.call? = some (call, sh)

section
variable {workers : List Worker} {shapes : List Shape} {w : Nat} {old new : Worker}

theorem getElem?_set_cases {other : Nat} {worker : Worker}
    (found : (workers.set w new)[other]? = some worker) :
    w = other ∧ worker = new ∨ w ≠ other ∧ workers[other]? = some worker := by
  by_cases same : w = other
  · subst same
    rw [List.getElem?_set] at found
    simp only [if_true] at found
    split at found
    · exact .inl ⟨rfl, (Option.some.inj found).symm⟩
    · cases found
  · rw [List.getElem?_set_ne same] at found
    exact .inr ⟨same, found⟩

theorem getElem?_set_other {other : Nat} {worker : Worker} (found : workers[w]? = some old)
    (there : workers[other]? = some worker) (different : worker ≠ old) :
    (workers.set w new)[other]? = some worker := by
  have ne : w ≠ other := by
    rintro rfl
    exact different (Option.some.inj (there.symm.trans found))
  rw [List.getElem?_set_ne ne]
  exact there

theorem Paired.quiet (paired : Paired workers shapes) (found : workers[w]? = some old)
    (idle : old.call? = none) (idle' : new.call? = none) : Paired (workers.set w new) shapes := by
  refine ⟨fun v worker call sh at' in_ => ?_, fun v v' worker worker' call sh sh' at' at'' in_ in' => ?_,
    fun call sh at' => ?_⟩
  · rcases getElem?_set_cases at' with ⟨_, rfl⟩ | ⟨_, before⟩
    · cases idle'.symm.trans in_
    · exact paired.agrees v worker call sh before in_
  · rcases getElem?_set_cases at' with ⟨_, rfl⟩ | ⟨_, before⟩
    · cases idle'.symm.trans in_
    · rcases getElem?_set_cases at'' with ⟨_, rfl⟩ | ⟨_, before'⟩
      · cases idle'.symm.trans in'
      · exact paired.distinct v v' worker worker' call sh sh' before before' in_ in'
  · refine (paired.covered call sh at').imp_right fun ⟨v, worker, before, in_⟩ => ?_
    refine ⟨v, worker, getElem?_set_other found before ?_, in_⟩
    rintro rfl
    cases idle.symm.trans in_

theorem Paired.begin {sh : Shape} (paired : Paired workers shapes) (found : workers[w]? = some old)
    (idle : old.call? = none) (begins : new.call? = some (shapes.length, sh)) :
    Paired (workers.set w new) (shapes ++ [sh]) := by
  have old_lt : ∀ {v : Nat} {worker : Worker} {call : Nat} {sh' : Shape}, workers[v]? = some worker →
      worker.call? = some (call, sh') → call < shapes.length := fun before in_ =>
    (List.getElem?_eq_some_iff.mp (paired.agrees _ _ _ _ before in_)).1
  have bound : w < workers.length := (List.getElem?_eq_some_iff.mp found).1
  refine ⟨fun v worker call sh' at' in_ => ?_, fun v v' worker worker' call sh₁ sh₂ at' at'' in_ in' => ?_,
    fun call sh' at' => ?_⟩
  · rcases getElem?_set_cases at' with ⟨_, rfl⟩ | ⟨_, before⟩
    · cases begins.symm.trans in_
      exact List.getElem?_concat_length
    · rw [List.getElem?_append_left (old_lt before in_)]
      exact paired.agrees v worker call sh' before in_
  · rcases getElem?_set_cases at' with ⟨rfl, rfl⟩ | ⟨_, before⟩
    · rcases getElem?_set_cases at'' with ⟨rfl, _⟩ | ⟨_, before'⟩
      · rfl
      · cases begins.symm.trans in_
        exact absurd (old_lt before' in') (lt_irrefl _)
    · rcases getElem?_set_cases at'' with ⟨rfl, rfl⟩ | ⟨_, before'⟩
      · cases begins.symm.trans in'
        exact absurd (old_lt before in_) (lt_irrefl _)
      · exact paired.distinct v v' worker worker' call sh₁ sh₂ before before' in_ in'
  · rcases List.getElem?_append.symm.trans at' with at'
    split at at'
    · refine (paired.covered call sh' at').imp_right fun ⟨v, worker, before, in_⟩ => ?_
      refine ⟨v, worker, getElem?_set_other found before ?_, in_⟩
      rintro rfl
      cases idle.symm.trans in_
    · rename_i late
      have last : call = shapes.length := by
        have short := (List.getElem?_eq_some_iff.mp at').1
        rw [List.length_singleton] at short
        omega
      subst last
      rw [Nat.sub_self] at at'
      cases at'
      exact .inr ⟨w, new, List.getElem?_set_self bound, begins⟩

theorem Paired.finish {call : Nat} {sh : Shape} (paired : Paired workers shapes)
    (found : workers[w]? = some old) (busy : old.call? = some (call, sh)) (idle : new.call? = none) :
    Paired (workers.set w new) (shapes.set call .ended) := by
  have other : ∀ {v : Nat} {worker : Worker} {c' : Nat} {sh' : Shape}, w ≠ v →
      workers[v]? = some worker → worker.call? = some (c', sh') → call ≠ c' := by
    rintro v worker c' sh' ne before in_ rfl
    exact ne (paired.distinct w v old worker call sh sh' found before busy in_)
  refine ⟨fun v worker c' sh' at' in_ => ?_, fun v v' worker worker' c' sh₁ sh₂ at' at'' in_ in' => ?_,
    fun c' sh' at' => ?_⟩
  · rcases getElem?_set_cases at' with ⟨_, rfl⟩ | ⟨ne, before⟩
    · cases idle.symm.trans in_
    · rw [List.getElem?_set_ne (other ne before in_)]
      exact paired.agrees v worker c' sh' before in_
  · rcases getElem?_set_cases at' with ⟨_, rfl⟩ | ⟨_, before⟩
    · cases idle.symm.trans in_
    · rcases getElem?_set_cases at'' with ⟨_, rfl⟩ | ⟨_, before'⟩
      · cases idle.symm.trans in'
      · exact paired.distinct v v' worker worker' c' sh₁ sh₂ before before' in_ in'
  · by_cases same : call = c'
    · subst same
      rw [List.getElem?_set] at at'
      simp only [if_true] at at'
      split at at'
      · exact .inl (Option.some.inj at').symm
      · cases at'
    · rw [List.getElem?_set_ne same] at at'
      refine (paired.covered c' sh' at').imp_right fun ⟨v, worker, before, in_⟩ => ?_
      refine ⟨v, worker, getElem?_set_other found before ?_, in_⟩
      rintro rfl
      cases busy.symm.trans in_
      exact same rfl

end

/-! ## `LockSet`s and who keeps them -/

namespace State

/-- The `LockSet` is with a worker, or with a call that was put off. -/
def Keeps (s : State) (k : Nat) : Prop :=
  (∃ r resumed, Worker.working r k resumed ∈ s.workers) ∨ (∃ r, (r, k) ∈ s.timers) ∨
    ∃ r, Task.resume r k ∈ s.queue

structure Owned (s : State) : Prop where
  paired : Paired s.workers (shapes s.locks)
  bound : ∀ k, s.Keeps k → k < s.locks.sets.length
  kept : ∀ (k : Nat) (held : List LockRequest), s.locks.sets[k]? = some held → held = [] ∨ s.Keeps k

variable {s s' : State} {w n : Nat}

theorem mem_set_other {workers : List Worker} {old new worker : Worker}
    (found : workers[w]? = some old) (member : worker ∈ workers) (different : worker ≠ old) :
    worker ∈ workers.set w new := by
  obtain ⟨v, there⟩ := List.getElem?_of_mem member
  exact List.mem_of_getElem? (getElem?_set_other found there different)

theorem mem_set_self {workers : List Worker} {old new : Worker} (found : workers[w]? = some old) :
    new ∈ workers.set w new :=
  List.mem_set (List.getElem?_eq_some_iff.mp found).1 new

theorem Owned.dispatch (owned : s.Owned) (r : Request) : (s.dispatch r).Owned := by
  refine ⟨owned.paired, fun k keeps => owned.bound k ?_, fun k held found => ?_⟩
  · rcases keeps with working | parked | ⟨r', queued⟩
    · exact .inl working
    · exact .inr (.inl parked)
    · rcases List.mem_append.mp queued with old | new
      · exact .inr (.inr ⟨r', old⟩)
      · cases List.mem_singleton.mp new
  · refine (owned.kept k held found).imp_right ?_
    rintro (working | parked | ⟨r', queued⟩)
    · exact .inl working
    · exact .inr (.inl parked)
    · exact .inr (.inr ⟨r', List.mem_append_left _ queued⟩)

theorem Owned.fire (owned : s.Owned) (taken : s.fire n = some s') : s'.Owned := by
  unfold State.fire at taken
  split at taken
  · rename_i r set found
    cases taken
    refine ⟨owned.paired, fun k keeps => owned.bound k ?_, fun k held found' => ?_⟩
    · rcases keeps with working | ⟨r', parked⟩ | ⟨r', queued⟩
      · exact .inl working
      · exact .inr (.inl ⟨r', List.mem_of_mem_eraseIdx parked⟩)
      · rcases List.mem_append.mp queued with old | new
        · exact .inr (.inr ⟨r', old⟩)
        · cases List.mem_singleton.mp new
          exact .inr (.inl ⟨r, List.mem_of_getElem? found⟩)
    · refine (owned.kept k held found').imp_right ?_
      rintro (working | ⟨r', parked⟩ | ⟨r', queued⟩)
      · exact .inl working
      · -- the timer that fires hands the set to the queue
        obtain ⟨i, at'⟩ := List.getElem?_of_mem parked
        by_cases same : i = n
        · subst same
          cases at'.symm.trans found
          exact .inr (.inr ⟨r, List.mem_append_right _ (List.mem_singleton.mpr rfl)⟩)
        · have stays : (r', k) ∈ s.timers.eraseIdx n :=
            List.mem_eraseIdx_iff_getElem?.mpr ⟨i, same, at'⟩
          exact .inr (.inl ⟨r', stays⟩)
      · exact .inr (.inr ⟨r', List.mem_append_left _ queued⟩)
  · cases taken

theorem shapes_acquire (locks : LockTable.State) (requests : List LockRequest) :
    shapes (locks.acquire requests) = shapes locks ++ [.acquire] := List.map_append

theorem Owned.start (owned : s.Owned) (taken : s.start w = some s') : s'.Owned := by
  unfold State.start at taken
  split at taken
  · rename_i r rest found queue
    cases taken
    refine ⟨?_, fun k keeps => owned.bound k ?_, fun k held found' => ?_⟩
    · dsimp only [setWorker]
      rw [shapes_acquire]
      refine owned.paired.begin found rfl ?_
      simp [Worker.call?, shapes]
    · rcases keeps with ⟨r', resumed, working⟩ | parked | ⟨r', queued⟩
      · rcases List.mem_or_eq_of_mem_set working with old | new
        · exact .inl ⟨r', resumed, old⟩
        · cases new
      · exact .inr (.inl parked)
      · exact .inr (.inr ⟨r', queue ▸ List.mem_cons_of_mem _ queued⟩)
    · refine (owned.kept k held found').imp_right ?_
      rintro (⟨r', resumed, working⟩ | parked | ⟨r', queued⟩)
      · exact .inl ⟨r', resumed, mem_set_other found working nofun⟩
      · exact .inr (.inl parked)
      · rw [queue] at queued
        rcases List.mem_cons.mp queued with other | inRest
        · cases other
        · exact .inr (.inr ⟨r', inRest⟩)
  · rename_i r set rest found queue
    cases taken
    refine ⟨owned.paired.quiet found rfl rfl, fun k keeps => owned.bound k ?_, fun k held found' => ?_⟩
    · rcases keeps with ⟨r', resumed, working⟩ | parked | ⟨r', queued⟩
      · rcases List.mem_or_eq_of_mem_set working with old | new
        · exact .inl ⟨r', resumed, old⟩
        · cases new
          exact .inr (.inr ⟨r, queue ▸ List.mem_cons_self⟩)
      · exact .inr (.inl parked)
      · exact .inr (.inr ⟨r', queue ▸ List.mem_cons_of_mem _ queued⟩)
    · refine (owned.kept k held found').imp_right ?_
      rintro (⟨r', resumed, working⟩ | parked | ⟨r', queued⟩)
      · exact .inl ⟨r', resumed, mem_set_other found working nofun⟩
      · exact .inr (.inl parked)
      · rw [queue] at queued
        rcases List.mem_cons.mp queued with front | inRest
        · cases front
          exact .inl ⟨r, true, mem_set_self found⟩
        · exact .inr (.inr ⟨r', inRest⟩)
  · cases taken

theorem Owned.same_locks {locks : LockTable.State} (owned : s.Owned)
    (same : shapes locks = shapes s.locks ∧ locks.sets = s.locks.sets) :
    Owned { s with locks } := by
  obtain ⟨sameShapes, sameSets⟩ := same
  refine ⟨?_, fun k keeps => ?_, fun k held found => ?_⟩
  · dsimp only
    rw [sameShapes]
    exact owned.paired
  · dsimp only
    rw [sameSets]
    exact owned.bound k keeps
  · dsimp only at found
    rw [sameSets] at found
    exact owned.kept k held found

theorem Owned.acquired (owned : s.Owned) (taken : s.acquired w = some s') : s'.Owned := by
  unfold State.acquired at taken
  split at taken
  · rename_i r call found
    obtain ⟨locks, finished, rfl⟩ := Option.map_eq_some_iff.mp taken
    obtain ⟨newShapes, got, sets⟩ := shapes_finish finished
    refine ⟨?_, fun k keeps => ?_, fun k held found' => ?_⟩
    · dsimp only [setWorker]
      rw [newShapes]
      exact owned.paired.finish found rfl rfl
    · dsimp only
      rw [sets, List.length_append, List.length_singleton]
      rcases keeps with ⟨r', resumed, working⟩ | parked | queued
      · rcases List.mem_or_eq_of_mem_set working with old | new
        · exact (owned.bound k (.inl ⟨r', resumed, old⟩)).trans (Nat.lt_succ_self _)
        · cases new
          exact Nat.lt_succ_self _
      · exact (owned.bound k (.inr (.inl parked))).trans (Nat.lt_succ_self _)
      · exact (owned.bound k (.inr (.inr queued))).trans (Nat.lt_succ_self _)
    · dsimp only at found'
      rw [sets] at found'
      rw [List.getElem?_append] at found'
      split at found'
      · refine (owned.kept k held found').imp_right ?_
        rintro (⟨r', resumed, working⟩ | parked | queued)
        · exact .inl ⟨r', resumed, mem_set_other found working nofun⟩
        · exact .inr (.inl parked)
        · exact .inr (.inr queued)
      · rename_i late
        have short := (List.getElem?_eq_some_iff.mp found').1
        rw [List.length_singleton] at short
        have last : k = s.locks.sets.length := by omega
        subst last
        exact .inr (.inl ⟨r, false, mem_set_self found⟩)
  · cases taken

theorem Owned.defer (owned : s.Owned) (taken : s.defer w = some s') : s'.Owned := by
  unfold State.defer at taken
  split at taken
  · rename_i r set resumed found
    split at taken
    · cases taken
      refine ⟨owned.paired.quiet found rfl rfl, fun k keeps => owned.bound k ?_, fun k held found' => ?_⟩
      · rcases keeps with ⟨r', resumed', working⟩ | ⟨r', parked⟩ | queued
        · rcases List.mem_or_eq_of_mem_set working with old | new
          · exact .inl ⟨r', resumed', old⟩
          · cases new
        · rcases List.mem_append.mp parked with old | new
          · exact .inr (.inl ⟨r', old⟩)
          · cases List.mem_singleton.mp new
            exact .inl ⟨r, resumed, List.mem_of_getElem? found⟩
        · exact .inr (.inr queued)
      · refine (owned.kept k held found').imp_right ?_
        rintro (⟨r', resumed', working⟩ | ⟨r', parked⟩ | queued)
        · by_cases same : Worker.working r' k resumed' = .working r set resumed
          · cases same
            exact .inr (.inl ⟨r, List.mem_append_right _ (List.mem_singleton.mpr rfl)⟩)
          · exact .inl ⟨r', resumed', mem_set_other found working same⟩
        · exact .inr (.inl ⟨r', List.mem_append_left _ parked⟩)
        · exact .inr (.inr queued)
    · cases taken
  · cases taken

theorem Owned.complete (owned : s.Owned) (taken : s.complete w = some s') : s'.Owned := by
  unfold State.complete at taken
  split at taken
  · rename_i r set resumed found
    obtain ⟨locks, released, rfl⟩ := Option.map_eq_some_iff.mp taken
    obtain ⟨newShapes, sets⟩ := shapes_release released
    refine ⟨?_, fun k keeps => ?_, fun k held found' => ?_⟩
    · dsimp only [setWorker]
      rw [newShapes]
      refine owned.paired.begin found rfl ?_
      simp [Worker.call?, shapes]
    · dsimp only
      rw [sets, List.length_set]
      refine owned.bound k ?_
      rcases keeps with ⟨r', resumed', working⟩ | parked | queued
      · rcases List.mem_or_eq_of_mem_set working with old | new
        · exact .inl ⟨r', resumed', old⟩
        · cases new
      · exact .inr (.inl parked)
      · exact .inr (.inr queued)
    · dsimp only at found'
      rw [sets, List.getElem?_set] at found'
      split at found'
      · split at found'
        · exact .inl (Option.some.inj found').symm
        · cases found'
      · rename_i other
        refine (owned.kept k held found').imp_right ?_
        rintro (⟨r', resumed', working⟩ | parked | queued)
        · refine .inl ⟨r', resumed', mem_set_other found working ?_⟩
          rintro same
          cases same
          exact other rfl
        · exact .inr (.inl parked)
        · exact .inr (.inr queued)
  · cases taken

theorem Owned.unlock (owned : s.Owned) (taken : s.unlock w = some s') : s'.Owned := by
  unfold State.unlock at taken
  split at taken
  · rename_i r call found
    obtain ⟨locks, unlocked, rfl⟩ := Option.map_eq_some_iff.mp taken
    obtain ⟨sets, ⟨ended, newShapes⟩ | ⟨goesOn, newShapes⟩⟩ := shapes_unlock unlocked
    · rw [if_pos ended]
      refine ⟨?_, fun k keeps => ?_, fun k held found' => ?_⟩
      · dsimp only
        rw [newShapes]
        exact owned.paired.finish found rfl rfl
      · dsimp only
        rw [sets]
        refine owned.bound k ?_
        rcases keeps with ⟨r', resumed', working⟩ | parked | queued
        · rcases List.mem_or_eq_of_mem_set working with old | new
          · exact .inl ⟨r', resumed', old⟩
          · cases new
        · exact .inr (.inl parked)
        · exact .inr (.inr queued)
      · dsimp only at found'
        rw [sets] at found'
        refine (owned.kept k held found').imp_right ?_
        rintro (⟨r', resumed', working⟩ | parked | queued)
        · exact .inl ⟨r', resumed', mem_set_other found working nofun⟩
        · exact .inr (.inl parked)
        · exact .inr (.inr queued)
    · rw [if_neg goesOn]
      exact owned.same_locks ⟨newShapes, sets⟩
  · cases taken

theorem Owned.step {action : Action} (owned : s.Owned) (taken : s.step action = some s') :
    s'.Owned := by
  cases action with
  | dispatch r =>
      cases taken
      exact owned.dispatch r
  | fire => exact owned.fire taken
  | worker w m =>
      cases m with
      | start => exact owned.start taken
      | lock =>
          simp only [State.step, State.move, State.lock] at taken
          split at taken
          · obtain ⟨locks, locked, rfl⟩ := Option.map_eq_some_iff.mp taken
            exact owned.same_locks (shapes_lock locked)
          · cases taken
      | wake =>
          simp only [State.step, State.move, State.wake] at taken
          split at taken
          · obtain ⟨locks, locked, rfl⟩ := Option.map_eq_some_iff.mp taken
            exact owned.same_locks (shapes_wake locked)
          · cases taken
      | acquired => exact owned.acquired taken
      | defer => exact owned.defer taken
      | complete => exact owned.complete taken
      | unlock => exact owned.unlock taken

theorem Initial.owned (initial : Initial s) : s.Owned := by
  obtain ⟨n, _, rfl⟩ := initial
  refine ⟨⟨?_, ?_, nofun⟩, ?_, nofun⟩
  · intro w worker call sh found in_
    obtain rfl := List.eq_of_mem_replicate (List.mem_of_getElem? found)
    cases in_
  · intro w w' worker worker' call sh sh' found _ in_
    obtain rfl := List.eq_of_mem_replicate (List.mem_of_getElem? found)
    cases in_
  · rintro k (⟨r, resumed, working⟩ | ⟨r, parked⟩ | ⟨r, queued⟩)
    · cases List.eq_of_mem_replicate working
    · cases parked
    · cases queued

end State

/-! ## Whether the pool wedges -/

/-- The worker is inside `cv.wait`. -/
def Worker.waits (locks : LockTable.State) : Worker → Bool
  | .acquiring _ call =>
      match locks.calls[call]? with
      | some (.waiting _ _ _ _) => true
      | _ => false
  | _ => false

def Task.isResume : Task → Bool
  | .resume _ _ => true
  | .start _ => false

namespace State

/-- The lock that the worker wants next is not free for it. -/
def blocks (s : State) (w : Nat) : Bool :=
  match s.workers[w]? with
  | some (.acquiring _ call) =>
      match s.locks.calls[call]? with
      | some (.locking _ (r :: _)) | some (.waiting _ r _ _) =>
          (s.locks.entryLocked r.path).blocked r.mode
      | _ => false
  | _ => false

/-- A step of a worker that brings it further: not one that wakes up to wait again. -/
def canAct (s : State) (w : Nat) (m : Move) : Bool :=
  (s.move w m).isSome && (m ≠ .wake || !s.blocks w)

/-- A call that was put off has not gone on yet. -/
def deferred (s : State) : Bool := !s.timers.isEmpty || s.queue.any Task.isResume

/-- A worker apart from `w` is not inside `cv.wait`. -/
def spare (s : State) (w : Nat) : Bool := (s.workers.eraseIdx w).any fun worker => !worker.waits s.locks

/-- A request is unfinished, no timer is pending, and no worker can go on. -/
def Wedged (s : State) : Prop :=
  (s.queue ≠ [] ∨ ∃ worker ∈ s.workers, worker ≠ .idle) ∧ s.timers = [] ∧
    ∀ w m, s.canAct w m = false

/-- The last worker that is not inside `cv.wait` begins to wait only while no call is put off. -/
def Allowed (s : State) : Action → Prop
  | .worker w .lock => s.blocks w = true → s.spare w = true ∨ s.deferred = false
  | _ => True

structure Spare (s : State) : Prop where
  workers : s.workers ≠ []
  free : (∃ worker ∈ s.workers, worker.waits s.locks = false) ∨ s.deferred = false

variable {s s' : State} {w n : Nat}

theorem Spare.of_worker {locks : LockTable.State} {workers : List Worker} {queue : List Task}
    {timers : List (Request × Nat)} {worker : Worker} (member : worker ∈ workers)
    (free : worker.waits locks = false) : Spare ⟨workers, locks, queue, timers⟩ :=
  ⟨List.ne_nil_of_mem member, .inl ⟨worker, member, free⟩⟩

theorem waits_turn {locks : LockTable.State} {c : Nat} {got todo : List LockRequest}
    {r : LockRequest} {e : Entry} {worker : Worker} (free : worker.waits locks = false)
    (other : worker.call? ≠ some (c, .acquire)) :
    worker.waits (locks.turn c got r todo e) = false := by
  cases worker with
  | acquiring r' call =>
      have ne : c ≠ call := by
        rintro rfl
        exact other rfl
      have same : (locks.turn c got r todo e).calls[call]? = locks.calls[call]? := by
        unfold LockTable.State.turn
        split
        · exact List.getElem?_set_ne ne
        · exact List.getElem?_set_ne ne
      rw [Worker.waits, same]
      exact free
  | _ => rfl

theorem waits_taken {locks : LockTable.State} {c : Nat} {got todo : List LockRequest}
    {r : LockRequest} {e : Entry} {q : Request} {call : Call} (found : locks.calls[c]? = some call)
    (free : e.blocked r.mode = false) :
    (Worker.acquiring q c).waits (locks.turn c got r todo e) = false := by
  have bound : c < locks.calls.length := (List.getElem?_eq_some_iff.mp found).1
  have taken : (locks.turn c got r todo e).calls = locks.calls.set c (.locking (got ++ [r]) todo) := by
    rw [LockTable.State.turn, if_neg (by rw [free]; exact Bool.false_ne_true)]
  rw [Worker.waits, taken, List.getElem?_set_self bound]

theorem Spare.lock (spare : s.Spare) (owned : s.Owned) (allowed : s.Allowed (.worker w .lock))
    (taken : s.lock w = some s') : s'.Spare := by
  unfold State.lock at taken
  split at taken
  · rename_i q call found
    obtain ⟨locks, locked, rfl⟩ := Option.map_eq_some_iff.mp taken
    unfold LockTable.State.lock at locked
    split at locked
    · rename_i got r todo at'
      cases locked
      cases blocked : (s.locks.entryLocked r.path).blocked r.mode with
      | false =>
          refine .of_worker (List.mem_of_getElem? found) (waits_taken at' ?_)
          rw [← blocked]
          cases r.mode <;> rfl
      | true =>
          have isBlocked : s.blocks w = true := by
            rw [blocks, found]
            dsimp only
            rw [at']
            exact blocked
          rcases allowed isBlocked with another | none
          · obtain ⟨worker, member, free⟩ := List.any_eq_true.mp another
            obtain ⟨v, ne, there⟩ := List.mem_eraseIdx_iff_getElem?.mp member
            refine .of_worker (List.mem_of_getElem? there) (waits_turn (by simpa using free) ?_)
            intro same
            exact ne (owned.paired.distinct v w _ _ _ _ _ there found same rfl)
          · exact ⟨spare.workers, .inr none⟩
    · cases locked
  · cases taken

theorem Spare.wake (spare : s.Spare) (taken : s.wake w = some s') : s'.Spare := by
  unfold State.wake at taken
  split at taken
  · rename_i q call found
    obtain ⟨locks, locked, rfl⟩ := Option.map_eq_some_iff.mp taken
    unfold LockTable.State.wake at locked
    split at locked
    · rename_i got r todo notified at'
      obtain ⟨e, _, rfl⟩ := Option.map_eq_some_iff.mp locked
      rcases spare.free with ⟨worker, member, free⟩ | none
      · refine .of_worker member (waits_turn free fun same => ?_)
        cases worker with
        | acquiring q' call' =>
            cases same
            rw [Worker.waits, at'] at free
            cases free
        | idle => cases same
        | working => cases same
        | releasing => cases same
      · exact ⟨spare.workers, .inr none⟩
    · cases locked
  · cases taken

theorem Spare.step {action : Action} (spare : s.Spare) (owned : s.Owned) (allowed : s.Allowed action)
    (taken : s.step action = some s') : s'.Spare := by
  cases action with
  | dispatch r =>
      cases taken
      refine ⟨spare.workers, spare.free.imp_right fun none => ?_⟩
      rw [deferred] at none ⊢
      simpa [State.dispatch, Task.isResume] using none
  | fire n =>
      simp only [State.step, State.fire] at taken
      split at taken
      · rename_i found
        cases taken
        refine ⟨spare.workers, spare.free.imp_right fun none => ?_⟩
        have timers : s.timers.isEmpty = true := by
          rw [deferred, Bool.or_eq_false_iff] at none
          simpa using none.1
        rw [List.isEmpty_iff.mp timers] at found
        cases found
      · cases taken
  | worker w m =>
      cases m with
      | start =>
          simp only [State.step, State.move, State.start] at taken
          split at taken
          · rename_i r rest found queue
            cases taken
            refine .of_worker (mem_set_self found) ?_
            rw [Worker.waits, LockTable.State.acquire]
            dsimp only
            rw [List.getElem?_concat_length]
          · rename_i r set rest found queue
            cases taken
            exact .of_worker (mem_set_self found) rfl
          · cases taken
      | lock => exact spare.lock owned allowed taken
      | wake => exact spare.wake taken
      | acquired =>
          simp only [State.step, State.move, State.acquired] at taken
          split at taken
          · rename_i r call found
            obtain ⟨locks, _, rfl⟩ := Option.map_eq_some_iff.mp taken
            exact .of_worker (mem_set_self found) rfl
          · cases taken
      | defer =>
          simp only [State.step, State.move, State.defer] at taken
          split at taken
          · rename_i found
            split at taken
            · cases taken
              exact .of_worker (mem_set_self found) rfl
            · cases taken
          · cases taken
      | complete =>
          simp only [State.step, State.move, State.complete] at taken
          split at taken
          · rename_i r set resumed found
            obtain ⟨locks, _, rfl⟩ := Option.map_eq_some_iff.mp taken
            exact .of_worker (mem_set_self found) rfl
          · cases taken
      | unlock =>
          simp only [State.step, State.move, State.unlock] at taken
          split at taken
          · rename_i r call found
            obtain ⟨locks, _, rfl⟩ := Option.map_eq_some_iff.mp taken
            split
            · exact .of_worker (mem_set_self found) rfl
            · exact .of_worker (List.mem_of_getElem? found) rfl
          · cases taken

/-! ## No worker is stuck -/

/-- A worker that cannot go on has nothing to do or is inside `cv.wait`. -/
theorem Owned.stuck (owned : s.Owned) (sound : s.locks.Sound) {worker : Worker}
    (found : s.workers[w]? = some worker) (stuck : ∀ m, s.canAct w m = false) :
    worker = .idle ∧ s.queue = [] ∨ worker.waits s.locks = true ∧ s.blocks w = true := by
  have never : ∀ m, m ≠ .wake → s.move w m = none := by
    intro m other
    have no := stuck m
    rw [canAct, decide_eq_true other, Bool.true_or, Bool.and_true] at no
    exact Option.isSome_eq_false_iff.mp no |> Option.isNone_iff_eq_none.mp
  cases worker with
  | idle =>
      refine .inl ⟨rfl, ?_⟩
      have no := never .start (by decide)
      cases queue : s.queue with
      | nil => rfl
      | cons task rest => cases task <;> simp [State.move, State.start, found, queue] at no
  | acquiring r call =>
      have shaped := owned.paired.agrees w _ call .acquire found rfl
      obtain ⟨c, at', acquires⟩ := Option.map_eq_some_iff.mp ((List.getElem?_map ..).symm.trans shaped)
      cases c with
      | unlocking => cases acquires
      | ended => cases acquires
      | locking got todo =>
          cases todo with
          | nil =>
              have no := never .acquired (by decide)
              simp [State.move, State.acquired, found, LockTable.State.finish, at'] at no
          | cons r' todo =>
              have no := never .lock (by decide)
              simp [State.move, State.lock, found, LockTable.State.lock, at'] at no
      | waiting got r' todo notified =>
          have waits : (Worker.acquiring r call).waits s.locks = true := by rw [Worker.waits, at']
          refine .inr ⟨waits, ?_⟩
          have stored : s.locks.entries[r'.path]? ≠ none := fun none =>
            ((sound.reclaimed r'.path).mp none).2 r'
              (LockTable.State.mem_waiters.mpr ⟨call, got, todo, notified, at'⟩) rfl
          obtain ⟨e, stored⟩ := Option.ne_none_iff_exists'.mp stored
          have no := stuck .wake
          simpa [canAct, State.move, State.wake, found, LockTable.State.wake, at', stored] using no
  | working r k resumed =>
      have bound := owned.bound k (.inl ⟨r, resumed, List.mem_of_getElem? found⟩)
      have no := never .complete (by decide)
      simp [State.move, State.complete, found, LockTable.State.release,
        List.getElem?_eq_getElem bound] at no
  | releasing r call =>
      have shaped := owned.paired.agrees w _ call .release found rfl
      obtain ⟨c, at', releases⟩ := Option.map_eq_some_iff.mp ((List.getElem?_map ..).symm.trans shaped)
      cases c with
      | locking => cases releases
      | waiting => cases releases
      | ended => cases releases
      | unlocking left =>
          have no := never .unlock (by decide)
          cases last : left.getLast? <;>
            simp [State.move, State.unlock, found, LockTable.State.unlock, at', last] at no

theorem mem_calls {sh : Shape} {c : Nat} {call : Call} (owned : s.Owned)
    (found : s.locks.calls[c]? = some call) (same : shape call = sh) (going : sh ≠ .ended) :
    ∃ (w : Nat) (worker : Worker), s.workers[w]? = some worker ∧ worker.call? = some (c, sh) := by
  have shaped : (shapes s.locks)[c]? = some sh := by simp [shapes, found, same]
  exact (owned.paired.covered c sh shaped).resolve_left going

theorem not_wedged (owned : s.Owned) (spare : s.Spare) (sound : s.locks.Sound)
    (live : s.locks.Live) : ¬ s.Wedged := by
  rintro ⟨unfinished, noTimers, stuck⟩
  have quiet : ∀ (w : Nat) (worker : Worker), s.workers[w]? = some worker →
      worker = .idle ∧ s.queue = [] ∨ worker.waits s.locks = true ∧ s.blocks w = true :=
    fun w worker found => owned.stuck sound found (stuck w)
  -- somebody waits for a lock
  have waiting : ∃ call r, s.locks.WaitsOn call r := by
    have some : ∃ worker ∈ s.workers, worker.waits s.locks = true := by
      by_contra none
      have idle : ∀ worker ∈ s.workers, worker = .idle ∧ s.queue = [] := by
        intro worker member
        obtain ⟨w, found⟩ := List.getElem?_of_mem member
        refine (quiet w worker found).resolve_right fun both => none ⟨worker, member, both.1⟩
      obtain ⟨worker, member⟩ := List.exists_mem_of_ne_nil _ spare.workers
      rcases unfinished with queue | ⟨busy, inWorkers, notIdle⟩
      · exact queue (idle worker member).2
      · exact notIdle (idle busy inWorkers).1
    obtain ⟨worker, inWorkers, waits⟩ := some
    cases worker with
    | acquiring q call =>
        rw [Worker.waits] at waits
        split at waits
        · rename_i got r todo notified found
          exact ⟨call, r, got, todo, notified, found⟩
        · cases waits
    | idle => cases waits
    | working => cases waits
    | releasing => cases waits
  obtain ⟨call, r, waits⟩ := waiting
  rcases live.moves call r waits with ⟨other, member, between⟩ | ⟨held, member, nonempty⟩ |
    ⟨c, got, r', todo, found, free⟩
  · -- a call that does not wait has a worker that can go on
    obtain ⟨c, found⟩ := List.getElem?_of_mem member
    have going : shape other ≠ .ended := by
      cases other with
      | ended => cases between
      | locking => exact nofun
      | unlocking => exact nofun
      | waiting => cases between
    obtain ⟨w, worker, at', in_⟩ := mem_calls owned found rfl going
    rcases quiet w worker at' with ⟨rfl, _⟩ | ⟨waits', _⟩
    · cases in_
    · cases worker with
      | acquiring q c' =>
          obtain ⟨rfl, _⟩ := Prod.mk.inj (Option.some.inj in_)
          rw [Worker.waits, found] at waits'
          cases other with
          | waiting => cases between
          | locking => cases waits'
          | unlocking => cases waits'
          | ended => cases waits'
      | idle => cases waits'
      | working => cases waits'
      | releasing => cases waits'
  · -- a `LockSet` is with a worker that can go on, or its call has to be taken up again
    obtain ⟨k, found⟩ := List.getElem?_of_mem member
    rcases (owned.kept k held found).resolve_left nonempty with ⟨q, resumed, working⟩ | ⟨q, parked⟩ |
      ⟨q, queued⟩
    · obtain ⟨w, at'⟩ := List.getElem?_of_mem working
      rcases quiet w _ at' with ⟨idle, _⟩ | ⟨waits', _⟩
      · cases idle
      · cases waits'
    · rw [noTimers] at parked
      cases parked
    · rcases spare.free with ⟨worker, inWorkers, free⟩ | none
      · obtain ⟨w, at'⟩ := List.getElem?_of_mem inWorkers
        rcases quiet w worker at' with ⟨_, queue⟩ | ⟨waits', _⟩
        · rw [queue] at queued
          cases queued
        · rw [free] at waits'
          cases waits'
      · rw [deferred, Bool.or_eq_false_iff, List.any_eq_false] at none
        exact absurd rfl (none.2 _ queued)
  · -- a thread that has been notified gets its lock
    obtain ⟨w, worker, at', in_⟩ := mem_calls owned found rfl nofun
    rcases quiet w worker at' with ⟨rfl, _⟩ | ⟨_, blocked⟩
    · cases in_
    · cases worker with
      | acquiring q c' =>
          cases in_
          rw [blocks, at'] at blocked
          dsimp only at blocked
          rw [found] at blocked
          dsimp only at blocked
          rw [free] at blocked
          cases blocked
      | idle => cases in_
      | working => cases in_
      | releasing => cases in_

/-- The lock table of the pool makes steps of its own only. -/
theorem locks_step {action : Action} (taken : s.step action = some s') :
    s'.locks = s.locks ∨ ∃ lockStep, s.locks.step lockStep = some s'.locks := by
  cases action with
  | dispatch r =>
      cases taken
      exact .inl rfl
  | fire n =>
      simp only [State.step, State.fire] at taken
      split at taken
      · cases taken
        exact .inl rfl
      · cases taken
  | worker w m =>
      cases m with
      | start =>
          simp only [State.step, State.move, State.start] at taken
          split at taken
          · rename_i r rest _ _
            cases taken
            exact .inr ⟨.acquire r.locks, rfl⟩
          · cases taken
            exact .inl rfl
          · cases taken
      | lock =>
          simp only [State.step, State.move, State.lock] at taken
          split at taken
          · rename_i call _
            obtain ⟨locks, locked, rfl⟩ := Option.map_eq_some_iff.mp taken
            exact .inr ⟨.lock call, locked⟩
          · cases taken
      | wake =>
          simp only [State.step, State.move, State.wake] at taken
          split at taken
          · rename_i call _
            obtain ⟨locks, locked, rfl⟩ := Option.map_eq_some_iff.mp taken
            exact .inr ⟨.wake call, locked⟩
          · cases taken
      | acquired =>
          simp only [State.step, State.move, State.acquired] at taken
          split at taken
          · rename_i call _
            obtain ⟨locks, locked, rfl⟩ := Option.map_eq_some_iff.mp taken
            exact .inr ⟨.finish call, locked⟩
          · cases taken
      | defer =>
          simp only [State.step, State.move, State.defer] at taken
          split at taken
          · split at taken
            · cases taken
              exact .inl rfl
            · cases taken
          · cases taken
      | complete =>
          simp only [State.step, State.move, State.complete] at taken
          split at taken
          · rename_i set _ _
            obtain ⟨locks, locked, rfl⟩ := Option.map_eq_some_iff.mp taken
            exact .inr ⟨.release set, locked⟩
          · cases taken
      | unlock =>
          simp only [State.step, State.move, State.unlock] at taken
          split at taken
          · rename_i call _
            obtain ⟨locks, locked, rfl⟩ := Option.map_eq_some_iff.mp taken
            exact .inr ⟨.unlock call, locked⟩
          · cases taken

theorem locks_reachable {allowed : State → Action → Prop}
    (reachable : Reachable State.step Initial allowed s) :
    Reachable LockTable.State.step LockTable.State.Initial (fun _ _ => True) s.locks := by
  induction reachable with
  | init start =>
      obtain ⟨n, _, rfl⟩ := start
      exact .init rfl
  | next _ _ taken ih =>
      rcases locks_step taken with same | ⟨lockStep, locked⟩
      · rw [same]
        exact ih
      · exact ih.next trivial locked

theorem Initial.spare (initial : Initial s) : s.Spare := by
  obtain ⟨n, two, rfl⟩ := initial
  have member : Worker.idle ∈ List.replicate n Worker.idle :=
    List.mem_replicate.mpr ⟨by omega, rfl⟩
  exact .of_worker member rfl

theorem not_wedged_of_allowed (reachable : Reachable State.step Initial Allowed s) : ¬ s.Wedged := by
  have owned : ∀ state, Reachable State.step Initial Allowed state → state.Owned := fun _ before =>
    before.invariant (fun _ initial => initial.owned) fun _ _ _ owned _ taken => owned.step taken
  have spare : s.Spare :=
    reachable.invariant_over owned (fun _ initial => initial.spare)
      fun _ _ _ owned spare allowed taken => spare.step owned allowed taken
  have locks := locks_reachable reachable
  obtain ⟨counted, lined⟩ := LockTable.State.invariant locks
  have alert := LockTable.State.alert_of_reachable locks
  exact not_wedged (owned s reachable) spare (counted.sound lined) (counted.live lined alert)

instance (s : State) : (action : Action) → Decidable (s.Allowed action)
  | .worker w .lock =>
      inferInstanceAs (Decidable (s.blocks w = true → s.spare w = true ∨ s.deferred = false))
  | .dispatch _ | .fire _ | .worker _ .start | .worker _ .wake | .worker _ .acquired
  | .worker _ .defer | .worker _ .complete | .worker _ .unlock => isTrue trivial

end State

def Move.all : List Move := [.start, .lock, .wake, .acquired, .defer, .complete, .unlock]

theorem Move.mem_all (m : Move) : m ∈ Move.all := by cases m <;> decide

theorem State.canAct_of_length_le {s : State} {w : Nat} {m : Move} (absent : s.workers.length ≤ w) :
    s.canAct w m = false := by
  have none : s.workers[w]? = none := List.getElem?_eq_none absent
  cases m <;> simp [canAct, move, start, lock, wake, acquired, defer, complete, unlock, none]

def twoWorkers : State := { workers := List.replicate 2 .idle }

def snapshotA : Request := ⟨.snapshot, forPaths "/a".toList .write "/b".toList .write⟩
def openF : Request := ⟨.plain, forPath "/a/f".toList .read⟩

/-- `Snapshot` puts itself off with `/a` locked, and a worker begins to wait for it. -/
def putOff : List Action :=
  [.dispatch snapshotA, .dispatch openF, .dispatch openF] ++
    [.start, .lock, .lock, .lock, .acquired, .defer, .start, .lock, .lock].map (.worker 0)

def bothWait : List Action := putOff ++ [.start, .lock, .lock].map (.worker 1) ++ [.fire 0]

theorem wedged_bothWait :
    ∃ s, Reachable State.step State.Initial (fun _ _ => True) s ∧ s.Wedged := by
  obtain ⟨s, ran⟩ := Option.isSome_iff_exists.mp
    (by decide +kernel : (run State.step twoWorkers bothWait).isSome = true)
  have last : (run State.step twoWorkers bothWait).map (fun s =>
      (s.workers.length, s.queue.length, s.timers,
        (List.range 2).all fun w => Move.all.all fun m => !s.canAct w m)) =
      some (2, 1, [], true) := by decide +kernel
  simp only [ran, Option.map_some, Option.some.injEq, Prod.mk.injEq] at last
  obtain ⟨two, one, noTimers, stuck⟩ := last
  refine ⟨s, reachable_run_true ⟨2, le_rfl, rfl⟩ ran, .inl ?_, noTimers, fun w m => ?_⟩
  · intro empty
    rw [empty] at one
    cases one
  · by_cases small : w < 2
    · have every := List.all_eq_true.mp stuck w (List.mem_range.mpr small)
      simpa using List.all_eq_true.mp every m m.mem_all
    · exact State.canAct_of_length_le (by omega)

/-- The other worker finishes `Snapshot`, and the first one gets its lock. -/
def finished : List Action :=
  [.dispatch snapshotA, .dispatch openF] ++
    [.start, .lock, .lock, .lock, .acquired, .defer, .start, .lock, .lock].map (.worker 0) ++
    [.fire 0] ++ [.start, .complete, .unlock, .unlock, .unlock, .unlock].map (.worker 1) ++
    [.wake, .lock, .acquired].map (.worker 0)

theorem not_wedged_finished :
    ∃ s, run State.step twoWorkers finished = some s ∧
      s.workers = [.working openF 1 false, .idle] ∧ ¬ s.Wedged := by
  obtain ⟨s, ran⟩ := Option.isSome_iff_exists.mp
    (by decide +kernel : (run State.step twoWorkers finished).isSome = true)
  have last : (run State.step twoWorkers finished).map (·.workers) =
      some [.working openF 1 false, .idle] := by decide +kernel
  rw [ran, Option.map_some, Option.some.injEq] at last
  exact ⟨s, ran, last, State.not_wedged_of_allowed
    (reachable_run ⟨2, le_rfl, rfl⟩ (by decide +kernel) ran)⟩

end Gfs.Master.WorkerPool
