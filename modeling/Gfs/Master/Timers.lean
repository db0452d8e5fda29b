import Gfs.Common.Base
import Gfs.Lib.CondVar
import Gfs.Lib.Transition
import Mathlib.Data.List.Perm.Basic

/-!
# The threads of `master/worker_pool.cc` and `master/timer_queue.cc`

A step is what a thread does while it has a mutex, one notification of a condition variable, or the
call of a function that the pool has taken. What such a function does is left open: it may post
others and set timers.
-/

namespace Gfs.Master.Timers
open Lib.Transition Lib.CondVar

variable {τ : Type}

/-! ## `WorkerPool` -/

/-- A thread of the pool; `looking` is about to test the condition in `Run`. -/
inductive Worker (τ : Type)
  | looking | waiting | running (task : τ) | ended
deriving DecidableEq

namespace Worker

def isLooking : Worker τ → Bool
  | .looking => true
  | _ => false

def isWaiting : Worker τ → Bool
  | .waiting => true
  | _ => false

def isRunning : Worker τ → Bool
  | .running _ => true
  | _ => false

end Worker

/-- `notifies` and `notifyAll` are the calls of `notify_one` in `Post` and of `notify_all` in `Stop`
that are still to come, `started` the tasks taken so far. -/
structure WorkerPool (τ : Type) where
  tasks : List τ := []
  stopping : Bool := false
  threads : List (Worker τ)
  notifies : Nat := 0
  notifyAll : Bool := false
  started : List τ := []

namespace WorkerPool

def post (task : τ) (p : WorkerPool τ) : WorkerPool τ :=
  if p.stopping then p
  else { p with tasks := p.tasks ++ [task], notifies := p.notifies + 1 }

def notify (target : Option Nat) (p : WorkerPool τ) : Option (WorkerPool τ) :=
  if p.notifies = 0 then none
  else (notifyOne Worker.isWaiting .looking p.threads target).map fun threads =>
    { p with threads, notifies := p.notifies - 1 }

def stop (p : WorkerPool τ) : WorkerPool τ :=
  if p.stopping then p else { p with stopping := true, notifyAll := true }

def wakeAll (p : WorkerPool τ) : Option (WorkerPool τ) :=
  if p.notifyAll then
    some { p with
      threads := Lib.CondVar.notifyAll Worker.isWaiting .looking p.threads
      notifyAll := false }
  else none

/-- The block of `Run` under the mutex. -/
def look (w : Nat) (p : WorkerPool τ) : Option (WorkerPool τ) :=
  match p.threads[w]? with
  | some .looking =>
      match p.tasks with
      | task :: tasks =>
          some { p with
            tasks
            threads := p.threads.set w (.running task)
            started := p.started ++ [task] }
      | [] =>
          some { p with threads := p.threads.set w (if p.stopping then .ended else .waiting) }
  | _ => none

def wakeUp (w : Nat) (p : WorkerPool τ) : Option (WorkerPool τ) :=
  match p.threads[w]? with
  | some .waiting => some { p with threads := p.threads.set w .looking }
  | _ => none

def finish (w : Nat) (p : WorkerPool τ) : Option (WorkerPool τ) :=
  match p.threads[w]? with
  | some (.running _) => some { p with threads := p.threads.set w .looking }
  | _ => none

end WorkerPool

/-! ### What holds in a pool -/

namespace WorkerPool

/-- Tasks are neither lost nor reordered, and nobody sleeps on work or on the end. -/
structure Sound (posted : List τ) (p : WorkerPool τ) : Prop where
  tasks : posted = p.started ++ p.tasks
  covered : Covered Worker.isWaiting Worker.isLooking p.threads p.tasks.length p.notifies
  stopped : p.stopping = true → p.notifyAll = true ∨
    ∀ thread ∈ p.threads, thread.isWaiting = false
  ended : .ended ∈ p.threads → p.stopping = true ∧ p.tasks = []

variable {posted : List τ} {p p' : WorkerPool τ} {task : τ} {w : Nat}

theorem not_ended_of_set {thread : Worker τ} (goes : thread ≠ .ended)
    (member : .ended ∈ p.threads.set w thread) : .ended ∈ p.threads := by
  rcases List.mem_or_eq_of_mem_set member with old | same
  · exact old
  · exact absurd same.symm goes

theorem isWaiting_set {thread : Worker τ} (awake : thread.isWaiting = false)
    (nobody : ∀ thread ∈ p.threads, thread.isWaiting = false) :
    ∀ other ∈ p.threads.set w thread, other.isWaiting = false := by
  intro other member
  rcases List.mem_or_eq_of_mem_set member with old | rfl
  · exact nobody other old
  · exact awake

theorem apart (thread : Worker τ) (waits : thread.isWaiting = true) : thread.isLooking = false := by
  cases thread <;> first | rfl | cases waits

theorem Sound.post (sound : p.Sound posted) :
    (p.post task).Sound (if p.stopping then posted else posted ++ [task]) := by
  unfold WorkerPool.post
  cases stopping : p.stopping with
  | true => exact sound
  | false =>
      refine ⟨?_, ?_, fun stops => ?_, fun member => ?_⟩
      · rw [if_neg Bool.false_ne_true, if_neg Bool.false_ne_true, sound.tasks, List.append_assoc]
      · rw [if_neg Bool.false_ne_true, List.length_append]
        exact sound.covered.post
      · rw [if_neg Bool.false_ne_true] at stops
        cases stops
      · rw [if_neg Bool.false_ne_true] at member
        cases stopping.symm.trans (sound.ended member).1

theorem Sound.notify {target : Option Nat} (sound : p.Sound posted)
    (taken : p.notify target = some p') : p'.Sound posted := by
  unfold WorkerPool.notify at taken
  split at taken
  · cases taken
  · rename_i due
    obtain ⟨threads, notified, rfl⟩ := Option.map_eq_some_iff.mp taken
    refine ⟨sound.tasks, ?_, fun stops => ?_, fun member => ?_⟩
    · apply Covered.notify rfl apart _ notified
      rw [Nat.sub_add_cancel (Nat.pos_of_ne_zero due)]
      exact sound.covered
    · rcases sound.stopped stops with due | nobody
      · exact .inl due
      · right
        rcases notifyOne_cases notified with ⟨-, rfl⟩ | ⟨i, thread, found, waits, rfl⟩
        · exact nobody
        · exact isWaiting_set rfl nobody
    · apply sound.ended
      rcases notifyOne_cases notified with ⟨-, rfl⟩ | ⟨i, thread, found, waits, rfl⟩
      · exact member
      · exact not_ended_of_set (by simp) member

theorem Sound.stop (sound : p.Sound posted) : p.stop.Sound posted := by
  unfold WorkerPool.stop
  split
  · exact sound
  · exact ⟨sound.tasks, sound.covered, fun _ => .inl rfl, fun member =>
      ⟨rfl, (sound.ended member).2⟩⟩

theorem Sound.wakeAll (sound : p.Sound posted) (taken : p.wakeAll = some p') :
    p'.Sound posted := by
  unfold WorkerPool.wakeAll at taken
  split at taken
  · cases taken
    have nobody : ∀ thread ∈ Lib.CondVar.notifyAll Worker.isWaiting .looking p.threads,
        thread.isWaiting = false := fun thread member => mem_notifyAll rfl member
    refine ⟨sound.tasks, .inl nobody, fun _ => .inr nobody, fun member => ?_⟩
    apply sound.ended
    obtain ⟨thread, there, same⟩ := List.mem_map.mp member
    split at same
    · cases same
    · exact same ▸ there
  · cases taken

theorem Sound.look (sound : p.Sound posted) (taken : p.look w = some p') : p'.Sound posted := by
  unfold WorkerPool.look at taken
  split at taken
  · rename_i found
    split at taken
    · rename_i task tasks there
      cases taken
      refine ⟨?_, ?_, fun stops => ?_, fun member => ?_⟩
      · rw [sound.tasks, there, List.append_assoc]
        rfl
      · have covered := sound.covered
        rw [there] at covered
        exact Covered.take covered found rfl
      · exact (sound.stopped stops).imp_right (isWaiting_set rfl)
      · have none := (sound.ended (not_ended_of_set (by simp) member)).2
        rw [there] at none
        cases none
    · rename_i none
      cases taken
      refine ⟨sound.tasks, ?_, fun stops => ?_, fun member => ?_⟩
      · rw [none]
        exact .nothing
      · refine (sound.stopped stops).imp_right (isWaiting_set ?_)
        have stops : p.stopping = true := stops
        rw [if_pos stops]
        rfl
      · refine ⟨?_, none⟩
        rcases List.mem_or_eq_of_mem_set member with old | same
        · exact (sound.ended old).1
        · show p.stopping = true
          by_contra goes
          rw [if_neg goes] at same
          cases same
  · cases taken

theorem Sound.wakeUp (sound : p.Sound posted) (taken : p.wakeUp w = some p') :
    p'.Sound posted := by
  unfold WorkerPool.wakeUp at taken
  split at taken
  · rename_i found
    cases taken
    exact ⟨sound.tasks, sound.covered.spurious rfl apart found rfl,
      fun stops => (sound.stopped stops).imp_right (isWaiting_set rfl),
      fun member => sound.ended (not_ended_of_set (by simp) member)⟩
  · cases taken

theorem Sound.finish (sound : p.Sound posted) (taken : p.finish w = some p') :
    p'.Sound posted := by
  unfold WorkerPool.finish at taken
  split at taken
  · rename_i found
    cases taken
    exact ⟨sound.tasks, sound.covered.comeBack found rfl rfl,
      fun stops => (sound.stopped stops).imp_right (isWaiting_set rfl),
      fun member => sound.ended (not_ended_of_set (by simp) member)⟩
  · cases taken

structure Same (p p' : WorkerPool τ) : Prop where
  stopping : p'.stopping = p.stopping
  threads : p'.threads.length = p.threads.length

theorem same_notify {target : Option Nat} (taken : p.notify target = some p') : Same p p' := by
  unfold WorkerPool.notify at taken
  split at taken
  · cases taken
  · obtain ⟨threads, notified, rfl⟩ := Option.map_eq_some_iff.mp taken
    refine ⟨rfl, ?_⟩
    rcases notifyOne_cases notified with ⟨-, rfl⟩ | ⟨i, thread, found, waits, rfl⟩
    · rfl
    · exact List.length_set

theorem same_wakeAll (taken : p.wakeAll = some p') : Same p p' := by
  unfold WorkerPool.wakeAll at taken
  split at taken
  · cases taken
    exact ⟨rfl, length_notifyAll⟩
  · cases taken

theorem same_look (taken : p.look w = some p') : Same p p' := by
  unfold WorkerPool.look at taken
  split at taken
  · split at taken
    · cases taken
      exact ⟨rfl, List.length_set⟩
    · cases taken
      exact ⟨rfl, List.length_set⟩
  · cases taken

theorem same_wakeUp (taken : p.wakeUp w = some p') : Same p p' := by
  unfold WorkerPool.wakeUp at taken
  split at taken
  · cases taken
    exact ⟨rfl, List.length_set⟩
  · cases taken

theorem same_finish (taken : p.finish w = some p') : Same p p' := by
  unfold WorkerPool.finish at taken
  split at taken
  · cases taken
    exact ⟨rfl, List.length_set⟩
  · cases taken

end WorkerPool

/-! ## `TimerQueue` -/

/-- The thread of the queue; `waiting` has the time of `wait_until`. -/
inductive Watch (τ : Type)
  | looking | waiting (deadline : Option TimePoint) | posting (timer : TimePoint × τ) | ended

/-- The timer that has left the queue but is not in the pool yet. -/
def Watch.inHand : Watch τ → List (TimePoint × τ)
  | .posting timer => [timer]
  | _ => []

structure TimerQueue (τ : Type) where
  timers : List (TimePoint × τ) := []
  stopping : Bool := false
  thread : Watch τ := .looking
  notifies : Nat := 0
  notifyAll : Bool := false

/-- `std::multimap::emplace`: after the entries with the same key. -/
def emplace (timer : TimePoint × τ) : List (TimePoint × τ) → List (TimePoint × τ)
  | [] => [timer]
  | first :: rest =>
      if first.1 ≤ timer.1 then first :: emplace timer rest else timer :: first :: rest

namespace TimerQueue

/-- `At`. -/
def add (timer : TimePoint × τ) (q : TimerQueue τ) : TimerQueue τ :=
  { q with timers := emplace timer q.timers, notifies := q.notifies + 1 }

def woken (q : TimerQueue τ) : TimerQueue τ :=
  match q.thread with
  | .waiting _ => { q with thread := .looking }
  | _ => q

def notify (q : TimerQueue τ) : Option (TimerQueue τ) :=
  if q.notifies = 0 then none else some { q.woken with notifies := q.notifies - 1 }

def stop (q : TimerQueue τ) : TimerQueue τ :=
  if q.stopping then q else { q with stopping := true, notifyAll := true }

def wakeAll (q : TimerQueue τ) : Option (TimerQueue τ) :=
  if q.notifyAll then some { q.woken with notifyAll := false } else none

/-- From the test of `stopping_` to `wait`, `wait_until` or `unlock`. -/
def look (now : TimePoint) (q : TimerQueue τ) : Option (TimerQueue τ) :=
  match q.thread with
  | .looking =>
      if q.stopping then some { q with thread := .ended }
      else match q.timers with
        | [] => some { q with thread := .waiting none }
        | first :: rest =>
            if now < first.1 then some { q with thread := .waiting (some first.1) }
            else some { q with timers := rest, thread := .posting first }
  | _ => none

/-- `wait_until` returns at its time. -/
def timeout (now : TimePoint) (q : TimerQueue τ) : Option (TimerQueue τ) :=
  match q.thread with
  | .waiting (some deadline) => if deadline ≤ now then some { q with thread := .looking } else none
  | _ => none

def wakeUp (q : TimerQueue τ) : Option (TimerQueue τ) :=
  match q.thread with
  | .waiting _ => some { q with thread := .looking }
  | _ => none

end TimerQueue

/-! ### What holds in a queue -/

theorem emplace_perm (timer : TimePoint × τ) (timers : List (TimePoint × τ)) :
    (emplace timer timers).Perm (timer :: timers) := by
  induction timers with
  | nil => exact .refl _
  | cons first rest ih =>
      unfold emplace
      split
      · exact (ih.cons first).trans (.swap timer first rest)
      · exact .refl _

theorem emplace_sorted {timer : TimePoint × τ} {timers : List (TimePoint × τ)}
    (sorted : timers.Pairwise (·.1 ≤ ·.1)) : (emplace timer timers).Pairwise (·.1 ≤ ·.1) := by
  induction timers with
  | nil => exact List.pairwise_singleton _ _
  | cons first rest ih =>
      obtain ⟨least, sorted⟩ := List.pairwise_cons.mp sorted
      unfold emplace
      split
      · rename_i before
        refine List.pairwise_cons.mpr ⟨fun other member => ?_, ih sorted⟩
        rcases List.mem_cons.mp ((emplace_perm timer rest).mem_iff.mp member) with rfl | later
        · exact before
        · exact least other later
      · rename_i after
        have before : timer.1 ≤ first.1 := (Int.not_le.mp after).le
        refine List.pairwise_cons.mpr
          ⟨fun other member => ?_, List.pairwise_cons.mpr ⟨least, sorted⟩⟩
        rcases List.mem_cons.mp member with rfl | later
        · exact before
        · exact before.trans (least other later)

namespace TimerQueue

/-- The thread does not sleep past a timer, unless a notification is to come. -/
def Alarm (q : TimerQueue τ) : Prop :=
  match q.thread with
  | .waiting none => 0 < q.notifies ∨ q.timers = []
  | .waiting (some deadline) => 0 < q.notifies ∨ ∀ timer ∈ q.timers, deadline ≤ timer.1
  | _ => True

structure Sound (now : TimePoint) (q : TimerQueue τ) : Prop where
  sorted : q.timers.Pairwise (·.1 ≤ ·.1)
  alarm : q.Alarm
  stopped : q.stopping = true → q.notifyAll = true ∨ ∀ deadline, q.thread ≠ .waiting deadline
  ended : q.thread = .ended → q.stopping = true
  due : ∀ timer, q.thread = .posting timer → timer.1 ≤ now

variable {now : TimePoint} {q q' : TimerQueue τ}

theorem Sound.later {now' : TimePoint} (sound : q.Sound now) (later : now ≤ now') :
    q.Sound now' :=
  ⟨sound.sorted, sound.alarm, sound.stopped, sound.ended, fun timer holds =>
    (sound.due timer holds).trans later⟩

theorem Sound.add (timer : TimePoint × τ) (sound : q.Sound now) : (q.add timer).Sound now := by
  refine ⟨emplace_sorted sound.sorted, ?_, sound.stopped, sound.ended, sound.due⟩
  show Alarm { q with timers := emplace timer q.timers, notifies := q.notifies + 1 }
  unfold Alarm
  dsimp only
  split
  · exact .inl (Nat.succ_pos _)
  · exact .inl (Nat.succ_pos _)
  · trivial

theorem Sound.awake (sound : q.Sound now) {thread : Watch τ} {notifies : Nat} {notifyAll : Bool}
    (awake : ∀ deadline, thread ≠ .waiting deadline)
    (ended : thread = .ended → q.stopping = true)
    (due : ∀ timer, thread = .posting timer → timer.1 ≤ now) :
    Sound now { q with thread, notifies, notifyAll } := by
  refine ⟨sound.sorted, ?_, fun _ => .inr awake, ended, due⟩
  unfold Alarm
  cases thread with
  | waiting deadline => exact absurd rfl (awake deadline)
  | looking | posting | ended => trivial

theorem Sound.woken (sound : q.Sound now) (notifies : Nat) (notifyAll : Bool) :
    Sound now { q.woken with notifies, notifyAll } := by
  unfold TimerQueue.woken
  cases thread : q.thread with
  | waiting deadline => exact sound.awake nofun nofun nofun
  | looking => exact sound.awake (by simp [thread]) (by simp [thread]) (by simp [thread])
  | posting timer =>
      apply sound.awake (by simp [thread]) (by simp [thread])
      exact sound.due
  | ended =>
      apply sound.awake (by simp [thread]) sound.ended
      simp [thread]

theorem Sound.notify (sound : q.Sound now) (taken : q.notify = some q') : q'.Sound now := by
  unfold TimerQueue.notify at taken
  split at taken
  · cases taken
  · cases taken
    exact sound.woken _ _

theorem Sound.wakeAll (sound : q.Sound now) (taken : q.wakeAll = some q') : q'.Sound now := by
  unfold TimerQueue.wakeAll at taken
  split at taken
  · cases taken
    exact sound.woken _ _
  · cases taken

theorem Sound.stop (sound : q.Sound now) : q.stop.Sound now := by
  unfold TimerQueue.stop
  split
  · exact sound
  · exact ⟨sound.sorted, sound.alarm, fun _ => .inl rfl, fun _ => rfl, sound.due⟩

theorem Sound.timeout (sound : q.Sound now) (taken : q.timeout now = some q') : q'.Sound now := by
  unfold TimerQueue.timeout at taken
  split at taken
  · split at taken
    · cases taken
      exact sound.awake nofun nofun nofun
    · cases taken
  · cases taken

theorem Sound.wakeUp (sound : q.Sound now) (taken : q.wakeUp = some q') : q'.Sound now := by
  unfold TimerQueue.wakeUp at taken
  split at taken
  · cases taken
    exact sound.awake nofun nofun nofun
  · cases taken

theorem look_cases (taken : q.look now = some q') : q.thread = .looking ∧
    ((q.stopping = true ∧ q' = { q with thread := .ended }) ∨
      q.stopping = false ∧
        ((q.timers = [] ∧ q' = { q with thread := .waiting none }) ∨
          ∃ first rest, q.timers = first :: rest ∧
            ((now < first.1 ∧ q' = { q with thread := .waiting (some first.1) }) ∨
              first.1 ≤ now ∧ q' = { q with timers := rest, thread := .posting first }))) := by
  unfold look at taken
  split at taken
  · rename_i looking
    refine ⟨looking, ?_⟩
    split at taken
    · rename_i stops
      cases taken
      exact .inl ⟨stops, rfl⟩
    · rename_i goes
      refine .inr ⟨by simpa using goes, ?_⟩
      split at taken
      · rename_i none
        cases taken
        exact .inl ⟨none, rfl⟩
      · rename_i first rest there
        refine .inr ⟨first, rest, there, ?_⟩
        split at taken
        · rename_i early
          cases taken
          exact .inl ⟨early, rfl⟩
        · rename_i due
          cases taken
          exact .inr ⟨Int.not_lt.mp due, rfl⟩
  · cases taken

theorem Sound.look (sound : q.Sound now) (taken : q.look now = some q') : q'.Sound now := by
  obtain ⟨looking, ⟨stops, rfl⟩ | ⟨goes, ⟨none, rfl⟩ | ⟨first, rest, there, rest'⟩⟩⟩ :=
    look_cases taken
  · exact sound.awake nofun (fun _ => stops) nofun
  · refine ⟨sound.sorted, .inr none, fun stops => ?_, nofun, nofun⟩
    cases goes.symm.trans stops
  · have sorted := sound.sorted
    rw [there] at sorted
    obtain ⟨least, sorted⟩ := List.pairwise_cons.mp sorted
    rcases rest' with ⟨early, rfl⟩ | ⟨due, rfl⟩
    · refine ⟨sound.sorted, .inr fun timer member => ?_, fun stops => ?_, nofun, nofun⟩
      · have member : timer ∈ q.timers := member
        rw [there] at member
        rcases List.mem_cons.mp member with rfl | later
        · exact le_refl _
        · exact least timer later
      · cases goes.symm.trans stops
    · refine ⟨sorted, trivial, fun _ => .inr nofun, nofun, fun timer holds => ?_⟩
      cases holds
      exact due

structure Still (q q' : TimerQueue τ) : Prop where
  timers : q'.timers = q.timers
  inHand : q'.thread.inHand = q.thread.inHand
  ended : q.thread = .ended → q'.thread = .ended

theorem still_woken (notifies : Nat) (notifyAll : Bool) :
    Still q { q.woken with notifies, notifyAll } := by
  unfold TimerQueue.woken
  cases thread : q.thread with
  | waiting deadline => exact ⟨rfl, by simp [thread, Watch.inHand], by simp [thread]⟩
  | looking | posting timer | ended => exact ⟨rfl, rfl, fun ended => ended⟩

theorem still_notify (taken : q.notify = some q') : Still q q' := by
  unfold TimerQueue.notify at taken
  split at taken
  · cases taken
  · cases taken
    exact still_woken _ _

theorem still_wakeAll (taken : q.wakeAll = some q') : Still q q' := by
  unfold TimerQueue.wakeAll at taken
  split at taken
  · cases taken
    exact still_woken _ _
  · cases taken

theorem still_stop : Still q q.stop := by
  unfold TimerQueue.stop
  split
  · exact ⟨rfl, rfl, fun ended => ended⟩
  · exact ⟨rfl, rfl, fun ended => ended⟩

theorem still_timeout (taken : q.timeout now = some q') : Still q q' := by
  unfold TimerQueue.timeout at taken
  split at taken
  · rename_i thread
    split at taken
    · cases taken
      exact ⟨rfl, by simp [thread, Watch.inHand], by simp [thread]⟩
    · cases taken
  · cases taken

theorem still_wakeUp (taken : q.wakeUp = some q') : Still q q' := by
  unfold TimerQueue.wakeUp at taken
  split at taken
  · rename_i thread
    cases taken
    exact ⟨rfl, by simp [thread, Watch.inHand], by simp [thread]⟩
  · cases taken

end TimerQueue

/-! ## Both -/

/-- A task with the time of its timer, if it was put in by the queue. -/
abbrev Task (τ : Type) := Option TimePoint × τ

/-- `added` are the timers that were set so far, `posted` the tasks that the pool has accepted. -/
structure Scheduler (τ : Type) where
  now : TimePoint := 0
  pool : WorkerPool (Task τ)
  queue : TimerQueue τ := {}
  added : List (TimePoint × τ) := []
  posted : List (Task τ) := []

/-- `look`, `timeout` and `post` are those of the timer thread. -/
inductive Action (τ : Type)
  | timer (timer : TimePoint × τ)
  | dispatch (fn : τ)
  | advance (passed : Duration)
  | stopTimers | stopPool
  | wakeUpTimer | wakeUp (w : Nat)
  | notifyTimer | wakeTimer | look | timeout | post
  | notify (target : Option Nat) | wakeAll | lookAt (w : Nat) | finish (w : Nat)

/-- The threads and the notifications go on by themselves. -/
def Action.isInternal : Action τ → Bool
  | .notifyTimer | .wakeTimer | .look | .timeout | .post | .notify _ | .wakeAll | .lookAt _
  | .finish _ => true
  | _ => false

namespace Scheduler

def submit (s : Scheduler τ) (task : Task τ) : Scheduler τ :=
  { s with
    pool := s.pool.post task
    posted := if s.pool.stopping then s.posted else s.posted ++ [task] }

/-- `pool_.Post(std::move(fn))` in `TimerQueue::Run`. -/
def post (s : Scheduler τ) : Option (Scheduler τ) :=
  match s.queue.thread with
  | .posting (deadline, fn) =>
      some ({ s with queue := { s.queue with thread := .looking } }.submit (some deadline, fn))
  | _ => none

/-- `Master::Stop` stops the pool after `timers_.Stop()`, which joins the thread of the queue. -/
def stopPool (s : Scheduler τ) : Option (Scheduler τ) :=
  match s.queue.thread with
  | .ended => some { s with pool := s.pool.stop }
  | _ => none

def step (s : Scheduler τ) : Action τ → Option (Scheduler τ)
  | .timer timer => some { s with queue := s.queue.add timer, added := s.added ++ [timer] }
  | .dispatch fn => some (s.submit (none, fn))
  | .advance passed => if 0 ≤ passed then some { s with now := s.now + passed } else none
  | .stopTimers => some { s with queue := s.queue.stop }
  | .stopPool => s.stopPool
  | .wakeUpTimer => s.queue.wakeUp.map fun queue => { s with queue }
  | .wakeUp w => (s.pool.wakeUp w).map fun pool => { s with pool }
  | .notifyTimer => s.queue.notify.map fun queue => { s with queue }
  | .wakeTimer => s.queue.wakeAll.map fun queue => { s with queue }
  | .look => (s.queue.look s.now).map fun queue => { s with queue }
  | .timeout => (s.queue.timeout s.now).map fun queue => { s with queue }
  | .post => s.post
  | .notify target => (s.pool.notify target).map fun pool => { s with pool }
  | .wakeAll => s.pool.wakeAll.map fun pool => { s with pool }
  | .lookAt w => (s.pool.look w).map fun pool => { s with pool }
  | .finish w => (s.pool.finish w).map fun pool => { s with pool }

/-- The master starts at least two threads. -/
def Initial (s : Scheduler τ) : Prop :=
  ∃ now threads, 2 ≤ threads ∧
    s = { now, pool := { threads := List.replicate threads .looking } }

/-! ### What holds of both -/

def timerOf (task : Task τ) : Option (TimePoint × τ) := task.1.map (·, task.2)

structure Sound (s : Scheduler τ) : Prop where
  pool : s.pool.Sound s.posted
  queue : s.queue.Sound s.now
  fired : s.added.Perm (s.queue.timers ++ (s.queue.thread.inHand ++ s.posted.filterMap timerOf))
  early : ∀ timer ∈ s.posted.filterMap timerOf, timer.1 ≤ s.now
  order : s.pool.stopping = true → s.queue.thread = .ended
  threads : 2 ≤ s.pool.threads.length

variable {s s' : Scheduler τ} {a : Action τ}

theorem Sound.still (sound : s.Sound) {queue : TimerQueue τ} (good : queue.Sound s.now)
    (still : TimerQueue.Still s.queue queue) : Sound { s with queue } := by
  refine ⟨sound.pool, good, ?_, sound.early, fun stops => still.ended (sound.order stops),
    sound.threads⟩
  dsimp only
  rw [still.timers, still.inHand]
  exact sound.fired

theorem Sound.work (sound : s.Sound) {pool : WorkerPool (Task τ)} (good : pool.Sound s.posted)
    (same : WorkerPool.Same s.pool pool) : Sound { s with pool } := by
  refine ⟨good, sound.queue, sound.fired, sound.early, fun stops => ?_, ?_⟩
  · apply sound.order
    rw [← same.stopping]
    exact stops
  · dsimp only
    rw [same.threads]
    exact sound.threads

theorem filterMap_timer (timer : TimePoint × τ) :
    [(some timer.1, timer.2)].filterMap timerOf = [timer] := rfl

theorem Sound.dispatch (sound : s.Sound) (fn : τ) : (s.submit (none, fn)).Sound := by
  have same : (s.submit (none, fn)).posted.filterMap timerOf = s.posted.filterMap timerOf := by
    unfold submit
    dsimp only
    split
    · rfl
    · rw [List.filterMap_append]
      exact List.append_nil _
  refine ⟨sound.pool.post, sound.queue, ?_, ?_, fun stops => sound.order ?_, ?_⟩
  · rw [same]
    exact sound.fired
  · rw [same]
    exact sound.early
  · unfold submit WorkerPool.post at stops
    split at stops
    · assumption
    · exact stops
  · unfold submit WorkerPool.post
    split
    · exact sound.threads
    · exact sound.threads

theorem Sound.post (sound : s.Sound) (taken : s.post = some s') : s'.Sound := by
  unfold Scheduler.post at taken
  split at taken
  · rename_i deadline fn posting
    cases taken
    have runs : s.pool.stopping = false := by
      by_contra stops
      rw [sound.order (by simpa using stops)] at posting
      cases posting
    have posted := @WorkerPool.Sound.post _ _ _ (some deadline, fn) sound.pool
    rw [runs, if_neg Bool.false_ne_true] at posted
    have fired := sound.fired
    rw [posting] at fired
    have due := sound.queue.due _ posting
    unfold submit WorkerPool.post at *
    rw [runs, if_neg Bool.false_ne_true, if_neg Bool.false_ne_true] at *
    refine ⟨posted, sound.queue.awake nofun nofun nofun, ?_, fun timer member => ?_, ?_,
      sound.threads⟩
    · dsimp only
      rw [List.filterMap_append]
      refine fired.trans ((List.Perm.refl _).append ?_)
      exact List.perm_append_comm
    · rw [List.filterMap_append] at member
      rcases List.mem_append.mp member with old | new
      · exact sound.early timer old
      · rw [filterMap_timer (deadline, fn), List.mem_singleton] at new
        subst new
        exact due
    · intro stops
      cases runs.symm.trans stops
  · cases taken

theorem Sound.look (sound : s.Sound) {queue : TimerQueue τ}
    (taken : s.queue.look s.now = some queue) : Sound { s with queue } := by
  have good := sound.queue.look taken
  have fired := sound.fired
  obtain ⟨looking, cases⟩ := TimerQueue.look_cases taken
  have runs : s.pool.stopping = true → queue.thread = .ended := by
    intro stops
    rw [sound.order stops] at looking
    cases looking
  refine ⟨sound.pool, good, ?_, sound.early, runs, sound.threads⟩
  rw [looking] at fired
  rcases cases with ⟨-, rfl⟩ | ⟨-, ⟨-, rfl⟩ | ⟨first, rest, there, ⟨-, rfl⟩ | ⟨-, rfl⟩⟩⟩
  · exact fired
  · exact fired
  · exact fired
  · rw [there] at fired
    refine fired.trans ?_
    exact List.perm_middle.symm

theorem Sound.step (sound : s.Sound) (taken : s.step a = some s') : s'.Sound := by
  cases a with
  | timer timer =>
      cases taken
      refine ⟨sound.pool, sound.queue.add timer, ?_, sound.early, sound.order, sound.threads⟩
      refine List.perm_append_comm.trans ?_
      refine (sound.fired.cons timer).trans ?_
      exact ((emplace_perm timer s.queue.timers).append_right _).symm
  | dispatch fn =>
      cases taken
      exact sound.dispatch fn
  | advance passed =>
      simp only [Scheduler.step, Option.ite_none_right_eq_some, Option.some.injEq] at taken
      obtain ⟨forward, rfl⟩ := taken
      have later : s.now ≤ s.now + passed := Int.le_add_of_nonneg_right forward
      exact ⟨sound.pool, sound.queue.later later, sound.fired,
        fun timer member => (sound.early timer member).trans later, sound.order, sound.threads⟩
  | stopTimers =>
      cases taken
      exact sound.still sound.queue.stop TimerQueue.still_stop
  | stopPool =>
      have taken : s.stopPool = some s' := taken
      unfold stopPool at taken
      split at taken
      · rename_i ended
        cases taken
        refine ⟨sound.pool.stop, sound.queue, sound.fired, sound.early, fun _ => ended, ?_⟩
        unfold WorkerPool.stop
        split
        · exact sound.threads
        · exact sound.threads
      · cases taken
  | wakeUpTimer =>
      obtain ⟨queue, goes, rfl⟩ := Option.map_eq_some_iff.mp taken
      exact sound.still (sound.queue.wakeUp goes) (TimerQueue.still_wakeUp goes)
  | wakeUp w =>
      obtain ⟨pool, goes, rfl⟩ := Option.map_eq_some_iff.mp taken
      exact sound.work (sound.pool.wakeUp goes) (WorkerPool.same_wakeUp goes)
  | notifyTimer =>
      obtain ⟨queue, goes, rfl⟩ := Option.map_eq_some_iff.mp taken
      exact sound.still (sound.queue.notify goes) (TimerQueue.still_notify goes)
  | wakeTimer =>
      obtain ⟨queue, goes, rfl⟩ := Option.map_eq_some_iff.mp taken
      exact sound.still (sound.queue.wakeAll goes) (TimerQueue.still_wakeAll goes)
  | look =>
      obtain ⟨queue, goes, rfl⟩ := Option.map_eq_some_iff.mp taken
      exact sound.look goes
  | timeout =>
      obtain ⟨queue, goes, rfl⟩ := Option.map_eq_some_iff.mp taken
      exact sound.still (sound.queue.timeout goes) (TimerQueue.still_timeout goes)
  | post => exact sound.post taken
  | notify target =>
      obtain ⟨pool, goes, rfl⟩ := Option.map_eq_some_iff.mp taken
      exact sound.work (sound.pool.notify goes) (WorkerPool.same_notify goes)
  | wakeAll =>
      obtain ⟨pool, goes, rfl⟩ := Option.map_eq_some_iff.mp taken
      exact sound.work (sound.pool.wakeAll goes) (WorkerPool.same_wakeAll goes)
  | lookAt w =>
      obtain ⟨pool, goes, rfl⟩ := Option.map_eq_some_iff.mp taken
      exact sound.work (sound.pool.look goes) (WorkerPool.same_look goes)
  | finish w =>
      obtain ⟨pool, goes, rfl⟩ := Option.map_eq_some_iff.mp taken
      exact sound.work (sound.pool.finish goes) (WorkerPool.same_finish goes)

theorem sound_initial (initial : s.Initial) : s.Sound := by
  obtain ⟨now, threads, some, rfl⟩ := initial
  have looking : ∀ thread ∈ List.replicate threads (Worker.looking : Worker (Task τ)),
      thread = .looking := fun thread member => List.eq_of_mem_replicate member
  refine ⟨⟨rfl, .nothing, nofun, fun member => ?_⟩, ⟨.nil, trivial, nofun, nofun, nofun⟩,
    .refl _, nofun, nofun, ?_⟩
  · cases looking _ member
  · rw [List.length_replicate]
    exact some

theorem sound_always
    (reachable : Reachable Scheduler.step Initial (fun _ _ => True) s) : s.Sound :=
  reachable.invariant (fun _ => sound_initial) fun _ _ _ sound _ taken => sound.step taken

/-- No timer is early, none is forgotten, and each is posted and started at most once. -/
theorem timers_once (reachable : Reachable Scheduler.step Initial (fun _ _ => True) s) :
    s.posted = s.pool.started ++ s.pool.tasks ∧
    s.added.Perm (s.queue.timers ++ (s.queue.thread.inHand ++ s.posted.filterMap timerOf)) ∧
    ∀ timer ∈ s.pool.started.filterMap timerOf, timer.1 ≤ s.now := by
  have sound := sound_always reachable
  refine ⟨sound.pool.tasks, sound.fired, fun timer member => sound.early timer ?_⟩
  rw [sound.pool.tasks, List.filterMap_append]
  exact List.mem_append_left _ member

end Scheduler

/-! ## The threads come to rest -/

namespace WorkerPool

/-- A bound on the steps that are left if nothing is posted. -/
def work (p : WorkerPool τ) : Nat :=
  3 * p.tasks.length + p.threads.countP Worker.isLooking + 2 * p.threads.countP Worker.isRunning +
    2 * p.notifies + if p.notifyAll then p.threads.length + 1 else 0

variable {p p' : WorkerPool τ} {w : Nat}

theorem set_counts {old : Worker τ} (new : Worker τ) (found : p.threads[w]? = some old) :
    (p.threads.set w new).countP Worker.isLooking + old.isLooking.toNat =
        p.threads.countP Worker.isLooking + new.isLooking.toNat ∧
      (p.threads.set w new).countP Worker.isRunning + old.isRunning.toNat =
        p.threads.countP Worker.isRunning + new.isRunning.toNat :=
  ⟨countP_set_add _ new found, countP_set_add _ new found⟩

theorem work_post (task : τ) : (p.post task).work ≤ p.work + 5 := by
  unfold WorkerPool.post
  split
  · exact Nat.le_add_right _ _
  · unfold work
    dsimp only
    rw [List.length_append, List.length_singleton]
    omega

theorem work_notify {target : Option Nat} (taken : p.notify target = some p') :
    p'.work < p.work := by
  unfold WorkerPool.notify at taken
  split at taken
  · cases taken
  · rename_i due
    obtain ⟨threads, notified, rfl⟩ := Option.map_eq_some_iff.mp taken
    unfold work
    dsimp only
    rcases notifyOne_cases notified with ⟨-, rfl⟩ | ⟨i, thread, found, waits, rfl⟩
    · omega
    · obtain ⟨looking, running⟩ := set_counts .looking found
      rw [List.length_set]
      cases thread with
      | waiting =>
          simp only [Worker.isLooking, Worker.isRunning, Bool.toNat_false, Bool.toNat_true]
            at looking running
          omega
      | looking | running task | ended => cases waits

theorem work_wakeAll (taken : p.wakeAll = some p') : p'.work < p.work := by
  unfold WorkerPool.wakeAll at taken
  split at taken
  · rename_i due
    cases taken
    have running : (Lib.CondVar.notifyAll Worker.isWaiting .looking p.threads).countP
        Worker.isRunning = p.threads.countP Worker.isRunning := by
      unfold Lib.CondVar.notifyAll
      rw [List.countP_map]
      congr 1
      funext thread
      cases thread <;> rfl
    have looking : (Lib.CondVar.notifyAll Worker.isWaiting .looking p.threads).countP
        Worker.isLooking ≤ p.threads.length :=
      List.countP_le_length.trans length_notifyAll.le
    unfold work
    dsimp only
    rw [running, if_pos due, if_neg Bool.false_ne_true]
    omega
  · cases taken

theorem work_look (taken : p.look w = some p') : p'.work < p.work := by
  unfold WorkerPool.look at taken
  split at taken
  · rename_i found
    split at taken
    · rename_i task tasks there
      cases taken
      obtain ⟨looking, running⟩ := set_counts (.running task) found
      simp only [Worker.isLooking, Worker.isRunning, Bool.toNat_false, Bool.toNat_true]
        at looking running
      unfold work
      dsimp only
      rw [there, List.length_cons, List.length_set]
      omega
    · rename_i none
      cases taken
      unfold work
      dsimp only
      rw [List.length_set]
      cases p.stopping with
      | true =>
          obtain ⟨looking, running⟩ := set_counts .ended found
          simp only [Worker.isLooking, Worker.isRunning, Bool.toNat_false, Bool.toNat_true]
            at looking running
          rw [if_pos rfl]
          omega
      | false =>
          obtain ⟨looking, running⟩ := set_counts .waiting found
          simp only [Worker.isLooking, Worker.isRunning, Bool.toNat_false, Bool.toNat_true]
            at looking running
          rw [if_neg Bool.false_ne_true]
          omega
  · cases taken

theorem work_finish (taken : p.finish w = some p') : p'.work < p.work := by
  unfold WorkerPool.finish at taken
  split at taken
  · rename_i task found
    cases taken
    obtain ⟨looking, running⟩ := set_counts .looking found
    simp only [Worker.isLooking, Worker.isRunning, Bool.toNat_false, Bool.toNat_true]
      at looking running
    unfold work
    dsimp only
    rw [List.length_set]
    omega
  · cases taken

end WorkerPool

namespace TimerQueue

def threadWork (now : TimePoint) : Watch τ → Nat
  | .looking => 1
  | .waiting (some deadline) => if deadline ≤ now then 2 else 0
  | .posting _ => 7
  | .waiting none | .ended => 0

def work (now : TimePoint) (q : TimerQueue τ) : Nat :=
  7 * q.timers.length + threadWork now q.thread + 2 * q.notifies + if q.notifyAll then 2 else 0

variable {now : TimePoint} {q q' : TimerQueue τ}

theorem threadWork_woken : threadWork now q.woken.thread ≤ threadWork now q.thread + 1 := by
  unfold woken
  cases thread : q.thread with
  | waiting deadline => exact Nat.le_add_left _ _
  | looking | posting timer | ended =>
      dsimp only
      rw [thread]
      exact Nat.le_add_right _ _

theorem timers_woken : q.woken.timers = q.timers ∧ q.woken.notifies = q.notifies ∧
    q.woken.notifyAll = q.notifyAll := by
  unfold woken
  split
  · exact ⟨rfl, rfl, rfl⟩
  · exact ⟨rfl, rfl, rfl⟩

theorem work_notify (taken : q.notify = some q') : q'.work now < q.work now := by
  unfold TimerQueue.notify at taken
  split at taken
  · cases taken
  · rename_i due
    cases taken
    have thread : threadWork now q.woken.thread ≤ threadWork now q.thread + 1 := threadWork_woken
    obtain ⟨timers, -, all⟩ := timers_woken (q := q)
    unfold work
    dsimp only
    rw [timers, all]
    omega

theorem work_wakeAll (taken : q.wakeAll = some q') : q'.work now < q.work now := by
  unfold TimerQueue.wakeAll at taken
  split at taken
  · rename_i due
    cases taken
    have thread : threadWork now q.woken.thread ≤ threadWork now q.thread + 1 := threadWork_woken
    obtain ⟨timers, one, -⟩ := timers_woken (q := q)
    unfold work
    dsimp only
    rw [timers, one, if_pos due, if_neg Bool.false_ne_true]
    omega
  · cases taken

theorem work_look (taken : q.look now = some q') : q'.work now < q.work now := by
  obtain ⟨looking, cases⟩ := look_cases taken
  unfold work
  rcases cases with ⟨-, rfl⟩ | ⟨-, ⟨-, rfl⟩ | ⟨first, rest, there, ⟨early, rfl⟩ | ⟨-, rfl⟩⟩⟩
  · simp only [looking, threadWork]
    omega
  · simp only [looking, threadWork]
    omega
  · simp only [looking, threadWork]
    rw [if_neg (Int.not_le.mpr early)]
    omega
  · simp only [looking, threadWork, there, List.length_cons]
    omega

theorem work_timeout (taken : q.timeout now = some q') : q'.work now < q.work now := by
  unfold TimerQueue.timeout at taken
  split at taken
  · rename_i deadline waits
    split at taken
    · rename_i late
      cases taken
      unfold work
      simp only [waits, threadWork]
      rw [if_pos late]
      omega
    · cases taken
  · cases taken

end TimerQueue

namespace Scheduler

def work (s : Scheduler τ) : Nat := s.pool.work + s.queue.work s.now

variable {s s' : Scheduler τ} {a : Action τ}

theorem work_post (taken : s.post = some s') : s'.work < s.work := by
  unfold Scheduler.post at taken
  split at taken
  · rename_i deadline fn posting
    cases taken
    have pool := WorkerPool.work_post (p := s.pool) (some deadline, fn)
    unfold work submit TimerQueue.work
    simp only [posting, TimerQueue.threadWork]
    omega
  · cases taken

/-- Every step of a thread and every notification lowers the bound. -/
theorem work_lt (internal : a.isInternal = true) (taken : s.step a = some s') :
    s'.work < s.work := by
  have pool : ∀ {p : WorkerPool (Task τ)}, p.work < s.pool.work →
      work { s with pool := p } < s.work := fun less => Nat.add_lt_add_right less _
  have queue : ∀ {q : TimerQueue τ}, q.work s.now < s.queue.work s.now →
      work { s with queue := q } < s.work := fun less => Nat.add_lt_add_left less _
  cases a with
  | timer | dispatch | advance | stopTimers | stopPool | wakeUpTimer | wakeUp => cases internal
  | notifyTimer =>
      obtain ⟨q, goes, rfl⟩ := Option.map_eq_some_iff.mp taken
      exact queue (TimerQueue.work_notify goes)
  | wakeTimer =>
      obtain ⟨q, goes, rfl⟩ := Option.map_eq_some_iff.mp taken
      exact queue (TimerQueue.work_wakeAll goes)
  | look =>
      obtain ⟨q, goes, rfl⟩ := Option.map_eq_some_iff.mp taken
      exact queue (TimerQueue.work_look goes)
  | timeout =>
      obtain ⟨q, goes, rfl⟩ := Option.map_eq_some_iff.mp taken
      exact queue (TimerQueue.work_timeout goes)
  | post => exact work_post taken
  | notify target =>
      obtain ⟨p, goes, rfl⟩ := Option.map_eq_some_iff.mp taken
      exact pool (WorkerPool.work_notify goes)
  | wakeAll =>
      obtain ⟨p, goes, rfl⟩ := Option.map_eq_some_iff.mp taken
      exact pool (WorkerPool.work_wakeAll goes)
  | lookAt w =>
      obtain ⟨p, goes, rfl⟩ := Option.map_eq_some_iff.mp taken
      exact pool (WorkerPool.work_look goes)
  | finish w =>
      obtain ⟨p, goes, rfl⟩ := Option.map_eq_some_iff.mp taken
      exact pool (WorkerPool.work_finish goes)

/-- No thread can go on and no notification is to come. -/
def Idle (s : Scheduler τ) : Prop := ∀ a : Action τ, a.isInternal = true → s.step a = none

/-- What was due has been run, the rest waits for its time, and what was told to stop has
stopped. -/
structure Settled (s : Scheduler τ) : Prop where
  tasks : s.pool.tasks = []
  started : s.pool.started = s.posted
  timers : s.queue.stopping = false → ∀ timer ∈ s.queue.timers, s.now < timer.1
  fired : s.added.Perm (s.queue.timers ++ s.pool.started.filterMap timerOf)
  queue : s.queue.stopping = true → s.queue.thread = .ended
  pool : s.pool.stopping = true → ∀ thread ∈ s.pool.threads, thread = .ended

theorem Idle.thread (idle : s.Idle) {w : Nat} {thread : Worker (Task τ)}
    (found : s.pool.threads[w]? = some thread) : thread = .waiting ∨ thread = .ended := by
  cases thread with
  | looking =>
      have taken := idle (.lookAt w) rfl
      simp only [step, WorkerPool.look, found, Option.map_eq_none_iff] at taken
      split at taken
      · cases taken
      · cases taken
  | running task =>
      have taken := idle (.finish w) rfl
      simp [step, WorkerPool.finish, found] at taken
  | waiting => exact .inl rfl
  | ended => exact .inr rfl

theorem Idle.pool (idle : s.Idle) (sound : s.Sound) : s.pool.tasks = [] ∧
    (s.pool.stopping = true → ∀ thread ∈ s.pool.threads, thread = .ended) := by
  have resting : ∀ thread ∈ s.pool.threads, thread = .waiting ∨ thread = .ended := by
    intro thread member
    obtain ⟨w, found⟩ := List.mem_iff_getElem?.mp member
    exact idle.thread found
  have told : s.pool.notifyAll = false := by
    have taken := idle .wakeAll rfl
    simpa [step, WorkerPool.wakeAll] using taken
  have ended : s.pool.stopping = true → ∀ thread ∈ s.pool.threads, thread = .ended := by
    intro stops thread member
    rcases sound.pool.stopped stops with due | nobody
    · cases told.symm.trans due
    · rcases resting thread member with rfl | same
      · cases nobody _ member
      · exact same
  refine ⟨?_, ended⟩
  obtain ⟨thread, member⟩ : ∃ thread, thread ∈ s.pool.threads := by
    apply List.exists_mem_of_length_pos
    exact Nat.lt_of_lt_of_le Nat.zero_lt_two sound.threads
  rcases resting thread member with rfl | rfl
  · have notified : s.pool.notifies = 0 := by
      obtain ⟨w, found⟩ := List.mem_iff_getElem?.mp member
      have taken := idle (.notify (some w)) rfl
      by_contra due
      simp [step, WorkerPool.notify, notifyOne, found, due, Worker.isWaiting] at taken
    have covered := sound.pool.covered
    rw [notified] at covered
    by_contra some
    have nobody := covered.awake (fun thread member => ?_) (List.length_pos_iff.mpr some) _ member
    · cases nobody
    · rcases resting thread member with rfl | rfl
      · rfl
      · rfl
  · exact (sound.pool.ended member).2

theorem Idle.queue (idle : s.Idle) (sound : s.Sound) : s.queue.thread.inHand = [] ∧
    (s.queue.stopping = false → ∀ timer ∈ s.queue.timers, s.now < timer.1) ∧
    (s.queue.stopping = true → s.queue.thread = .ended) := by
  have quiet : s.queue.notifies = 0 := by
    have taken := idle .notifyTimer rfl
    simpa [step, TimerQueue.notify] using taken
  have told : s.queue.notifyAll = false := by
    have taken := idle .wakeTimer rfl
    simpa [step, TimerQueue.wakeAll] using taken
  have alarm := sound.queue.alarm
  unfold TimerQueue.Alarm at alarm
  cases thread : s.queue.thread with
  | looking =>
      have taken := idle .look rfl
      simp only [step, TimerQueue.look, thread, Option.map_eq_none_iff] at taken
      split at taken
      · cases taken
      · split at taken
        · cases taken
        · split at taken
          · cases taken
          · cases taken
  | posting timer =>
      have taken := idle .post rfl
      simp [step, Scheduler.post, thread] at taken
  | ended =>
      refine ⟨rfl, fun goes => ?_, fun _ => rfl⟩
      cases goes.symm.trans (sound.queue.ended thread)
  | waiting deadline =>
      refine ⟨rfl, fun _ => ?_, fun stops => ?_⟩
      · rw [thread, quiet] at alarm
        cases deadline with
        | none =>
            rw [alarm.resolve_left (Nat.lt_irrefl 0)]
            exact nofun
        | some deadline =>
            have early : s.now < deadline := by
              have taken := idle .timeout rfl
              simpa [step, TimerQueue.timeout, thread] using taken
            intro timer member
            exact early.trans_le (alarm.resolve_left (Nat.lt_irrefl 0) timer member)
      · rcases sound.queue.stopped stops with due | awake
        · cases told.symm.trans due
        · exact absurd thread (awake deadline)

theorem Idle.settled (idle : s.Idle) (sound : s.Sound) : s.Settled := by
  obtain ⟨tasks, stopped⟩ := idle.pool sound
  obtain ⟨inHand, timers, ended⟩ := idle.queue sound
  have started : s.pool.started = s.posted := by
    rw [sound.pool.tasks, tasks, List.append_nil]
  refine ⟨tasks, started, timers, ?_, ended, stopped⟩
  have fired := sound.fired
  rw [inHand] at fired
  rw [started]
  exact fired

/-- In whatever order the threads go on, they come to rest, and nothing that is due is left. -/
theorem settles (reachable : Reachable Scheduler.step Initial (fun _ _ => True) s)
    {actions : List (Action τ)} (internal : ∀ a ∈ actions, a.isInternal = true)
    (ran : run Scheduler.step s actions = some s') :
    actions.length ≤ s.work ∧ (s'.Idle → s'.Settled) := by
  have meets : Meets Scheduler.step (fun _ a => a.isInternal = true) s actions :=
    meets_of_forall fun _ a member => internal a member
  constructor
  · have bound := length_add_le_of_run work
      (fun _ _ _ _ internal taken => ⟨trivial, work_lt internal taken⟩) trivial meets ran
    omega
  · intro idle
    apply idle.settled
    apply sound_always
    exact reachable.run (meets_of_forall fun _ _ _ => trivial) ran

end Scheduler

/-! ### Two threads

A timer for 5 is set before one for 3, a request comes in, and then both times have come. -/

def busy : List (Action String) :=
  [.look, .timer (5, "late"), .notifyTimer, .look, .timer (3, "early"), .dispatch "request",
    .lookAt 0, .advance 6]

def goingOn : List (Action String) :=
  [.notifyTimer, .look, .post, .look, .lookAt 1, .post, .look, .finish 1, .notify none, .lookAt 1,
    .notify none, .notify none, .finish 0, .lookAt 0, .finish 1, .lookAt 1]

def twoThreads : Scheduler String := { pool := { threads := List.replicate 2 .looking } }

def atRest : Scheduler String where
  now := 6
  pool := {
    threads := [.waiting, .waiting]
    started := [(none, "request"), (some 3, "early"), (some 5, "late")] }
  queue := { thread := .waiting none }
  added := [(5, "late"), (3, "early")]
  posted := [(none, "request"), (some 3, "early"), (some 5, "late")]

theorem atRest_idle : atRest.Idle := by
  intro a internal
  cases a with
  | notify target => rfl
  | lookAt w | finish w =>
      cases w with
      | zero => rfl
      | succ w =>
          cases w with
          | zero => rfl
          | succ w => rfl
  | notifyTimer | wakeTimer | look | timeout | post | wakeAll => rfl
  | timer | dispatch | advance | stopTimers | stopPool | wakeUpTimer | wakeUp => cases internal

theorem twoThreads_initial : twoThreads.Initial := ⟨0, 2, le_refl 2, rfl⟩

theorem settles_twoThreads : ∃ s, run Scheduler.step twoThreads busy = some s ∧
    run Scheduler.step s goingOn = some atRest ∧ goingOn.length ≤ s.work ∧ atRest.Settled := by
  obtain ⟨s, ran⟩ := Option.isSome_iff_exists.mp
    (rfl : (run Scheduler.step twoThreads busy).isSome = true)
  have whole : (run Scheduler.step twoThreads busy).bind (run Scheduler.step · goingOn) =
      some atRest := rfl
  rw [ran, Option.bind_some] at whole
  obtain ⟨bound, settled⟩ :=
    Scheduler.settles (reachable_run_true twoThreads_initial ran) (by decide) whole
  exact ⟨s, ran, whole, bound, settled atRest_idle⟩

theorem timers_once_twoThreads : atRest.posted = atRest.pool.started ++ atRest.pool.tasks ∧
    ∀ timer ∈ atRest.pool.started.filterMap Scheduler.timerOf, timer.1 ≤ atRest.now := by
  have ran : run Scheduler.step twoThreads (busy ++ goingOn) = some atRest := rfl
  obtain ⟨fifo, -, early⟩ :=
    Scheduler.timers_once (reachable_run_true twoThreads_initial ran)
  exact ⟨fifo, early⟩

end Gfs.Master.Timers
