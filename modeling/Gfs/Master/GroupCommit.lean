import Gfs.Common.Base
import Gfs.Lib.CondVar
import Gfs.Lib.Transition
import Mathlib.Data.List.Range

/-!
# The threads of `master/oplog.cc`

The handlers append records and wait in `WaitFlushed`; one flusher writes all that has come together
by the time it has a full batch or has waited long enough. A step is what a thread does while it has
the mutex, the writing of a batch, or a notification. A record is its sequence number.
-/

namespace Gfs.Master.GroupCommit
open Lib.Transition Lib.CondVar

/-- The flusher in `Run`: `waiting` is the first wait, `filling` the one with a deadline, and
`rotating` is in `Rotate` before it has the mutex. -/
inductive Flusher
  | testing | waiting
  | filling (deadline : TimePoint) (asleep : Bool)
  | writing (batch : List Nat)
  | publishing (last : Nat)
  | notifying | rotating | ended
deriving DecidableEq

namespace Flusher

def inHand : Flusher → List Nat
  | .writing batch => batch
  | _ => []

def isAsleep : Flusher → Bool
  | .waiting | .filling _ true => true
  | _ => false

/-- The flusher is not inside `WriteBatch` before the mutex. -/
def isPlain : Flusher → Bool
  | .writing _ | .publishing _ => false
  | _ => true

end Flusher

/-- A thread in `WaitFlushed`; `looking` is about to test the condition. -/
inductive Wait
  | looking | waiting | returned
deriving DecidableEq

/-- A call of `WaitFlushed` for a sequence number. -/
structure Call where
  seq : Nat
  wait : Wait := .looking
deriving DecidableEq

namespace Call

def isLooking (call : Call) : Bool := call.wait = .looking

def isWaiting (call : Call) : Bool := call.wait = .waiting

def wake (call : Call) : Call := if call.isWaiting then { call with wait := .looking } else call

variable {call : Call}

theorem wake_of_waiting (waits : call.wait = .waiting) :
    call.wake = { call with wait := .looking } := if_pos (decide_eq_true waits)

theorem wake_of_not_waiting (awake : call.wait ≠ .waiting) : call.wake = call := by
  unfold wake isWaiting
  rw [if_neg (by simpa using awake)]

end Call

/-- `written` are the records that the sinks were given so far; `notifies` and `notifyAll` are for
`pending_cv_`. -/
structure OpLog where
  now : TimePoint := 0
  pending : List Nat := []
  nextSeq : Nat := 1
  flushedSeq : Nat := 0
  stopping : Bool := false
  flusher : Flusher := .testing
  notifies : Nat := 0
  notifyAll : Bool := false
  calls : List Call := []
  written : List Nat := []
deriving DecidableEq

namespace OpLog

/-- `Append`; the number is the result. -/
def append (s : OpLog) : OpLog :=
  { s with
    pending := s.pending ++ [s.nextSeq]
    nextSeq := s.nextSeq + 1
    notifies := s.notifies + 1 }

def stop (s : OpLog) : OpLog :=
  if s.stopping then s else { s with stopping := true, notifyAll := true }

/-- A notification of `pending_cv_`. -/
def woken (s : OpLog) : OpLog :=
  match s.flusher with
  | .waiting => { s with flusher := .testing }
  | .filling deadline true => { s with flusher := .filling deadline false }
  | _ => s

def notify (s : OpLog) : Option OpLog :=
  if s.notifies = 0 then none else some { s.woken with notifies := s.notifies - 1 }

def wakeAll (s : OpLog) : Option OpLog :=
  if s.notifyAll then some { s.woken with notifyAll := false } else none

/-- `wait_for` returns at its time. -/
def timeout (s : OpLog) : Option OpLog :=
  match s.flusher with
  | .filling deadline true =>
      if deadline ≤ s.now then some { s with flusher := .filling deadline false } else none
  | _ => none

def collect (s : OpLog) : OpLog := { s with flusher := .writing s.pending, pending := [] }

/-- The condition of `wait_for`. -/
def isFull (batchSize : Nat) (s : OpLog) : Bool :=
  s.stopping || decide (batchSize ≤ s.pending.length)

/-- The flusher has the mutex of the queue: in `Run`, or in `Rotate`. -/
def look (batchSize : Nat) (maxDelay : Duration) (s : OpLog) : Option OpLog :=
  match s.flusher with
  | .testing =>
      if s.pending.isEmpty then
        some { s with flusher := if s.stopping then .ended else .waiting }
      else if s.isFull batchSize then some s.collect
      else some { s with flusher := .filling (s.now + maxDelay) true }
  | .filling deadline false =>
      if s.isFull batchSize || decide (deadline ≤ s.now) then some s.collect
      else some { s with flusher := .filling deadline true }
  | .rotating => some (if s.pending.isEmpty then { s with flusher := .testing } else s.collect)
  | _ => none

/-- The loop over the sinks in `WriteBatch`. -/
def write (s : OpLog) : Option OpLog :=
  match s.flusher with
  | .writing batch =>
      some { s with
        written := s.written ++ batch
        flusher := .publishing (batch.getLastD 0) }
  | _ => none

def publish (s : OpLog) : Option OpLog :=
  match s.flusher with
  | .publishing last =>
      some { s with flushedSeq := max s.flushedSeq last, flusher := .notifying }
  | _ => none

/-- `flushed_cv_.notify_all()`; whether a rotation follows depends on the size of the segment. -/
def announce (rotates : Bool) (s : OpLog) : Option OpLog :=
  match s.flusher with
  | .notifying =>
      some { s with
        calls := s.calls.map Call.wake
        flusher := if rotates then .rotating else .testing }
  | _ => none

/-- A thread in `WaitFlushed` tests the condition. -/
def test (i : Nat) (s : OpLog) : Option OpLog :=
  match s.calls[i]? with
  | some { seq, wait := .looking } =>
      let wait := if s.flushedSeq < seq ∧ s.stopping = false then .waiting else .returned
      some { s with calls := s.calls.set i { seq, wait } }
  | _ => none

def spurious (i : Nat) (s : OpLog) : Option OpLog :=
  match s.calls[i]? with
  | some { seq, wait := .waiting } => some { s with calls := s.calls.set i { seq } }
  | _ => none

end OpLog

/-- The flusher also takes part in a rotation; `WaitFlushed` is for a record that was appended. -/
inductive Action
  | append | waitFlushed (seq : Nat) | stop | advance (passed : Duration)
  | spuriousFlusher | spurious (i : Nat)
  | notify | wakeAll | timeout | look | write | publish | announce (rotates : Bool) | test (i : Nat)

def Action.isInternal : Action → Bool
  | .notify | .wakeAll | .timeout | .look | .write | .publish | .announce _ | .test _ => true
  | _ => false

namespace OpLog

def step (batchSize : Nat) (maxDelay : Duration) (s : OpLog) : Action → Option OpLog
  | .append => some s.append
  | .waitFlushed seq =>
      if seq < s.nextSeq then some { s with calls := s.calls ++ [{ seq }] } else none
  | .stop => some s.stop
  | .advance passed => if 0 ≤ passed then some { s with now := s.now + passed } else none
  | .spuriousFlusher => some s.woken
  | .spurious i => s.spurious i
  | .notify => s.notify
  | .wakeAll => s.wakeAll
  | .timeout => s.timeout
  | .look => s.look batchSize maxDelay
  | .write => s.write
  | .publish => s.publish
  | .announce rotates => s.announce rotates
  | .test i => s.test i

def Initial (s : OpLog) : Prop := ∃ now, s = { now }

/-! ## What holds in every state -/

structure Ordered (s : OpLog) : Prop where
  next : 0 < s.nextSeq
  order : List.range' 1 (s.nextSeq - 1) = s.written ++ (s.flusher.inHand ++ s.pending)
  batch : ∀ batch, s.flusher = .writing batch → batch ≠ []
  flushed : match s.flusher with
    | .publishing last => last = s.written.length ∧ s.flushedSeq ≤ last
    | _ => s.flushedSeq = s.written.length

/-- The flusher does not sleep on what it has to do. -/
structure Alert (batchSize : Nat) (s : OpLog) : Prop where
  waiting : s.flusher = .waiting → 0 < s.notifies ∨ s.pending = []
  filling : ∀ deadline asleep, s.flusher = .filling deadline asleep → s.pending ≠ [] ∧
    (asleep = true → 0 < s.notifies ∨ s.pending.length < batchSize)
  stopped : s.stopping = true → s.notifyAll = true ∨ s.flusher.isAsleep = false
  ended : s.flusher = .ended → s.stopping = true

/-- What a call of `WaitFlushed` relies on. -/
structure Served (s : OpLog) (call : Call) : Prop where
  appended : call.seq < s.nextSeq
  returned : call.wait = .returned → call.seq ≤ s.flushedSeq ∨ s.stopping = true
  waiting : call.wait = .waiting → s.flusher ≠ .ended ∧
    (s.flushedSeq < call.seq ∨ s.flusher = .notifying)

structure Sound (batchSize : Nat) (s : OpLog) : Prop where
  ordered : s.Ordered
  alert : s.Alert batchSize
  served : ∀ call ∈ s.calls, s.Served call

section
variable {batchSize : Nat} {maxDelay : Duration} {s s' : OpLog} {call : Call} {i : Nat}

theorem Ordered.written (ordered : s.Ordered) :
    s.written = List.range' 1 s.written.length ∧ s.written.length < s.nextSeq ∧
      s.flusher.inHand ++ s.pending =
        List.range' (1 + s.written.length) (s.nextSeq - 1 - s.written.length) := by
  obtain ⟨k, within, written, rest⟩ := List.range'_eq_append_iff.mp ordered.order
  have length : s.written.length = k := by
    rw [written, List.length_range']
  have next := ordered.next
  rw [length]
  refine ⟨written, by omega, ?_⟩
  rw [rest, Nat.mul_one]

theorem Ordered.last {batch : List Nat} (ordered : s.Ordered)
    (writing : s.flusher = .writing batch) :
    batch.getLastD 0 = (s.written ++ batch).length := by
  obtain ⟨-, -, rest⟩ := ordered.written
  rw [writing] at rest
  obtain ⟨k, within, isBatch, -⟩ := List.range'_eq_append_iff.mp rest.symm
  have isBatch : batch = _ := isBatch
  have some : k ≠ 0 := by
    rintro rfl
    exact ordered.batch batch writing isBatch
  rw [List.getLastD_eq_getLast?, isBatch, List.getLast?_range', if_neg some, List.length_append,
    List.length_range', Option.getD_some]
  omega

theorem Ordered.flushed_eq (ordered : s.Ordered) (plain : s.flusher.isPlain = true) :
    s.flushedSeq = s.written.length := by
  have flushed := ordered.flushed
  split at flushed
  · rename_i last publishing
    rw [publishing] at plain
    cases plain
  · exact flushed

theorem Ordered.flushed_le (ordered : s.Ordered) : s.flushedSeq ≤ s.written.length := by
  have flushed := ordered.flushed
  split at flushed
  · exact flushed.1 ▸ flushed.2
  · exact flushed.le

theorem inHand_plain {flusher : Flusher} (plain : flusher.isPlain = true) :
    flusher.inHand = [] := by
  cases flusher with
  | writing batch => cases plain
  | _ => rfl

theorem Ordered.still (ordered : s.Ordered) {flusher : Flusher} {now : TimePoint} {stopping : Bool}
    {notifies : Nat} {notifyAll : Bool} {calls : List Call} (before : s.flusher.isPlain = true)
    (after : flusher.isPlain = true) :
    Ordered { s with flusher, now, stopping, notifies, notifyAll, calls } := by
  refine ⟨ordered.next, ?_, fun batch writing => ?_, ?_⟩
  · dsimp only
    rw [ordered.order, inHand_plain before, inHand_plain after]
  · dsimp only at writing
    rw [writing] at after
    cases after
  · have flushed := ordered.flushed_eq before
    cases flusher with
    | publishing last => cases after
    | _ => exact flushed

theorem Served.still (served : s.Served call) {flusher : Flusher} {pending : List Nat}
    {now : TimePoint} {notifies : Nat} {notifyAll : Bool} {written : List Nat}
    (before : s.flusher ≠ .notifying) (after : flusher ≠ .ended) :
    Served { s with flusher, pending, now, notifies, notifyAll, written } call :=
  ⟨served.appended, served.returned, fun waits =>
    ⟨after, .inl ((served.waiting waits).2.resolve_right before)⟩⟩

theorem Sound.append (sound : s.Sound batchSize) : s.append.Sound batchSize := by
  have ordered := sound.ordered
  have next := ordered.next
  refine ⟨⟨Nat.succ_pos _, ?_, ordered.batch, ordered.flushed⟩,
    ⟨fun _ => .inl (Nat.succ_pos _), fun deadline asleep filling => ⟨by simp [OpLog.append],
      fun _ => .inl (Nat.succ_pos _)⟩, sound.alert.stopped, sound.alert.ended⟩,
    fun call member => ?_⟩
  · have one : s.nextSeq - 1 + 1 = s.nextSeq := by omega
    show List.range' 1 (s.nextSeq + 1 - 1) = s.written ++ (s.flusher.inHand ++ (s.pending ++ _))
    rw [Nat.add_sub_cancel, ← one, List.range'_1_concat, ordered.order, one, Nat.add_comm 1, one]
    simp only [List.append_assoc]
  · have served := sound.served call member
    exact ⟨Nat.lt_succ_of_lt served.appended, served.returned, served.waiting⟩

theorem Sound.waitFlushed {seq : Nat} (sound : s.Sound batchSize) (appended : seq < s.nextSeq) :
    Sound batchSize { s with calls := s.calls ++ [{ seq }] } := by
  have ordered := sound.ordered
  refine ⟨⟨ordered.next, ordered.order, ordered.batch, ordered.flushed⟩,
    ⟨sound.alert.waiting, sound.alert.filling, sound.alert.stopped, sound.alert.ended⟩,
    fun call member => ?_⟩
  rcases List.mem_append.mp member with old | new
  · have served := sound.served call old
    exact ⟨served.appended, served.returned, served.waiting⟩
  · rw [List.mem_singleton.mp new]
    exact ⟨appended, nofun, nofun⟩

theorem Sound.stop (sound : s.Sound batchSize) : s.stop.Sound batchSize := by
  unfold OpLog.stop
  split
  · exact sound
  · have ordered := sound.ordered
    refine ⟨⟨ordered.next, ordered.order, ordered.batch, ordered.flushed⟩,
      ⟨sound.alert.waiting, sound.alert.filling, fun _ => .inl rfl, fun _ => rfl⟩,
      fun call member => ?_⟩
    have served := sound.served call member
    exact ⟨served.appended, fun _ => .inr rfl, served.waiting⟩

theorem Sound.advance {passed : Duration} (sound : s.Sound batchSize) :
    Sound batchSize { s with now := s.now + passed } := by
  have ordered := sound.ordered
  refine ⟨⟨ordered.next, ordered.order, ordered.batch, ordered.flushed⟩,
    ⟨sound.alert.waiting, sound.alert.filling, sound.alert.stopped, sound.alert.ended⟩,
    fun call member => ?_⟩
  have served := sound.served call member
  exact ⟨served.appended, served.returned, served.waiting⟩

theorem Sound.wake (sound : s.Sound batchSize) {flusher : Flusher} {notifies : Nat}
    {notifyAll : Bool} (sleeps : s.flusher.isAsleep = true)
    (wakes : flusher = .testing ∨ ∃ deadline, flusher = .filling deadline false ∧
      s.flusher = .filling deadline true) :
    Sound batchSize { s with flusher, notifies, notifyAll } := by
  have before : s.flusher.isPlain = true ∧ s.flusher ≠ .notifying := by
    cases flusher' : s.flusher with
    | waiting | filling => exact ⟨rfl, nofun⟩
    | testing | writing | publishing | notifying | rotating | ended =>
        rw [flusher'] at sleeps
        cases sleeps
  rcases wakes with rfl | ⟨deadline, rfl, filling⟩
  · exact ⟨sound.ordered.still before.1 rfl, ⟨nofun, nofun, fun _ => .inr rfl, nofun⟩,
      fun call member => (sound.served call member).still before.2 nofun⟩
  · refine ⟨sound.ordered.still before.1 rfl, ⟨nofun, fun deadline' asleep same => ?_,
      fun _ => .inr rfl, nofun⟩, fun call member => (sound.served call member).still before.2 nofun⟩
    cases same
    exact ⟨(sound.alert.filling deadline true filling).1, nofun⟩

theorem Sound.woken (sound : s.Sound batchSize) (notifies : Nat) (notifyAll : Bool) :
    Sound batchSize { s.woken with notifies, notifyAll } := by
  unfold OpLog.woken
  have awake : s.flusher.isAsleep = false →
      Sound batchSize { s with notifies, notifyAll } := by
    intro awake
    have ordered := sound.ordered
    refine ⟨⟨ordered.next, ordered.order, ordered.batch, ordered.flushed⟩,
      ⟨fun waiting => ?_, fun deadline asleep filling => ?_, fun _ => .inr awake,
        sound.alert.ended⟩, fun call member => ?_⟩
    · have waiting : s.flusher = .waiting := waiting
      rw [waiting] at awake
      cases awake
    · have filling : s.flusher = .filling deadline asleep := filling
      refine ⟨(sound.alert.filling deadline asleep filling).1, ?_⟩
      rintro rfl
      rw [filling] at awake
      cases awake
    · have served := sound.served call member
      exact ⟨served.appended, served.returned, served.waiting⟩
  split
  · rename_i waiting
    apply sound.wake (by rw [waiting]; rfl)
    exact .inl rfl
  · rename_i deadline filling
    apply sound.wake (by rw [filling]; rfl)
    exact .inr ⟨deadline, rfl, filling⟩
  · rename_i notWaiting notFilling
    apply awake
    cases flusher : s.flusher with
    | waiting => exact absurd flusher notWaiting
    | filling deadline asleep =>
        cases asleep with
        | true => exact absurd flusher (notFilling deadline)
        | false => rfl
    | testing | writing | publishing | notifying | rotating | ended => rfl

theorem Sound.collect (sound : s.Sound batchSize) (plain : s.flusher.isPlain = true)
    (other : s.flusher ≠ .notifying) (some : s.pending ≠ []) : s.collect.Sound batchSize := by
  have ordered := sound.ordered
  refine ⟨⟨ordered.next, ?_, fun batch writing => ?_, ordered.flushed_eq plain⟩,
    ⟨nofun, nofun, fun _ => .inr rfl, nofun⟩,
    fun call member => (sound.served call member).still other nofun⟩
  · have order := ordered.order
    rw [inHand_plain plain] at order
    rw [OpLog.collect]
    dsimp only
    rw [order, List.nil_append]
    exact (congrArg _ (List.append_nil _)).symm
  · cases writing
    exact some

theorem Sound.look (sound : s.Sound batchSize) (taken : s.look batchSize maxDelay = some s') :
    s'.Sound batchSize := by
  have ordered := sound.ordered
  unfold OpLog.look at taken
  split at taken
  · rename_i testing
    have plain : s.flusher.isPlain = true := by rw [testing]; rfl
    have other : s.flusher ≠ .notifying := by simp [testing]
    split at taken
    · rename_i none
      have none : s.pending = [] := List.isEmpty_iff.mp none
      cases taken
      by_cases stopping : s.stopping = true
      · -- everything is with the sinks, so that nobody waits any more
        rw [if_pos stopping]
        refine ⟨ordered.still plain rfl, ⟨nofun, nofun, fun _ => .inr rfl, fun _ => stopping⟩,
          fun call member => ?_⟩
        have served := sound.served call member
        refine ⟨served.appended, fun _ => .inr stopping, fun waits => ?_⟩
        have behind := (served.waiting waits).2.resolve_right other
        have flushed := ordered.flushed_eq plain
        obtain ⟨-, -, rest⟩ := ordered.written
        rw [none, inHand_plain plain] at rest
        have all := congrArg List.length rest
        rw [List.length_range'] at all
        have appended := served.appended
        simp only [List.append_nil, List.length_nil] at all
        omega
      · rw [if_neg stopping]
        exact ⟨ordered.still plain rfl, ⟨fun _ => .inr none, nofun,
          fun stops => absurd stops stopping, nofun⟩,
          fun call member => (sound.served call member).still other nofun⟩
    · rename_i some
      have some : s.pending ≠ [] := fun none => some (List.isEmpty_iff.mpr none)
      split at taken
      · cases taken
        exact sound.collect plain other some
      · rename_i notFull
        cases taken
        unfold isFull at notFull
        simp only [Bool.or_eq_true, decide_eq_true_eq, not_or, Bool.not_eq_true] at notFull
        refine ⟨ordered.still plain rfl, ⟨nofun, fun deadline asleep same => ?_, fun stops => ?_,
          nofun⟩, fun call member => (sound.served call member).still other nofun⟩
        · cases same
          exact ⟨some, fun _ => .inr (Nat.lt_of_not_le notFull.2)⟩
        · cases notFull.1.symm.trans stops
  · rename_i deadline filling
    have plain : s.flusher.isPlain = true := by rw [filling]; rfl
    have other : s.flusher ≠ .notifying := by simp [filling]
    have some := (sound.alert.filling deadline false filling).1
    split at taken
    · cases taken
      exact sound.collect plain other some
    · rename_i early
      cases taken
      unfold isFull at early
      simp only [Bool.or_eq_true, decide_eq_true_eq, not_or, Bool.not_eq_true] at early
      refine ⟨ordered.still plain rfl, ⟨nofun, fun deadline asleep same => ?_, fun stops => ?_,
        nofun⟩, fun call member => (sound.served call member).still other nofun⟩
      · cases same
        exact ⟨some, fun _ => .inr (Nat.lt_of_not_le early.1.2)⟩
      · cases early.1.1.symm.trans stops
  · rename_i rotating
    have plain : s.flusher.isPlain = true := by rw [rotating]; rfl
    have other : s.flusher ≠ .notifying := by simp [rotating]
    split at taken
    · cases taken
      exact ⟨ordered.still plain rfl, ⟨nofun, nofun, fun _ => .inr rfl, nofun⟩,
        fun call member => (sound.served call member).still other nofun⟩
    · rename_i some
      cases taken
      exact sound.collect plain other fun none => some (List.isEmpty_iff.mpr none)
  · cases taken

theorem Sound.write (sound : s.Sound batchSize) (taken : s.write = some s') :
    s'.Sound batchSize := by
  have ordered := sound.ordered
  unfold OpLog.write at taken
  split at taken
  · rename_i batch writing
    cases taken
    have last := ordered.last writing
    refine ⟨⟨ordered.next, ?_, nofun, last, ?_⟩, ⟨nofun, nofun, fun _ => .inr rfl, nofun⟩,
      fun call member => ?_⟩
    · have order := ordered.order
      rw [writing] at order
      dsimp only
      rw [order, List.append_assoc]
      rfl
    · rw [last, List.length_append]
      exact ordered.flushed_le.trans (Nat.le_add_right _ _)
    · exact (sound.served call member).still (by simp [writing]) nofun
  · cases taken

theorem Sound.publish (sound : s.Sound batchSize) (taken : s.publish = some s') :
    s'.Sound batchSize := by
  have ordered := sound.ordered
  unfold OpLog.publish at taken
  split at taken
  · rename_i last publishing
    cases taken
    have flushed := ordered.flushed
    rw [publishing] at flushed
    refine ⟨⟨ordered.next, ?_, nofun, ?_⟩, ⟨nofun, nofun, fun _ => .inr rfl, nofun⟩,
      fun call member => ?_⟩
    · have order := ordered.order
      rw [publishing] at order
      exact order
    · exact (Nat.max_eq_right flushed.2).trans flushed.1
    · have served := sound.served call member
      refine ⟨served.appended, fun returned => ?_, fun _ => ⟨nofun, .inr rfl⟩⟩
      exact (served.returned returned).imp_left fun le => le.trans (Nat.le_max_left _ _)
  · cases taken

theorem Sound.announce {rotates : Bool} (sound : s.Sound batchSize)
    (taken : s.announce rotates = some s') : s'.Sound batchSize := by
  unfold OpLog.announce at taken
  split at taken
  · rename_i notifying
    cases taken
    have plain : s.flusher.isPlain = true := by rw [notifying]; rfl
    refine ⟨?_, ?_, fun call member => ?_⟩
    · apply sound.ordered.still plain
      cases rotates <;> rfl
    · cases rotates
      · exact ⟨nofun, nofun, fun _ => .inr rfl, nofun⟩
      · exact ⟨nofun, nofun, fun _ => .inr rfl, nofun⟩
    · obtain ⟨before, there, rfl⟩ := List.mem_map.mp member
      have served := sound.served before there
      by_cases waits : before.wait = .waiting
      · rw [Call.wake_of_waiting waits]
        exact ⟨served.appended, nofun, nofun⟩
      · rw [Call.wake_of_not_waiting waits]
        exact ⟨served.appended, served.returned, fun waits' => absurd waits' waits⟩
  · cases taken

theorem Sound.set (sound : s.Sound batchSize) (served : s.Served call) :
    Sound batchSize { s with calls := s.calls.set i call } := by
  have ordered := sound.ordered
  refine ⟨⟨ordered.next, ordered.order, ordered.batch, ordered.flushed⟩,
    ⟨sound.alert.waiting, sound.alert.filling, sound.alert.stopped, sound.alert.ended⟩,
    fun other member => ?_⟩
  rcases List.mem_or_eq_of_mem_set member with old | rfl
  · have served := sound.served other old
    exact ⟨served.appended, served.returned, served.waiting⟩
  · exact ⟨served.appended, served.returned, served.waiting⟩

theorem Sound.test (sound : s.Sound batchSize) (taken : s.test i = some s') :
    s'.Sound batchSize := by
  unfold OpLog.test at taken
  split at taken
  · rename_i seq found
    cases taken
    have served := sound.served _ (List.mem_of_getElem? found)
    apply sound.set
    by_cases behind : s.flushedSeq < seq ∧ s.stopping = false
    · rw [if_pos behind]
      refine ⟨served.appended, nofun, fun _ => ⟨fun ended => ?_, .inl behind.1⟩⟩
      cases behind.2.symm.trans (sound.alert.ended ended)
    · rw [if_neg behind]
      refine ⟨served.appended, fun _ => ?_, nofun⟩
      by_contra neither
      rw [not_or] at neither
      exact behind ⟨Nat.lt_of_not_le neither.1, by simpa using neither.2⟩
  · cases taken

theorem Sound.spurious (sound : s.Sound batchSize) (taken : s.spurious i = some s') :
    s'.Sound batchSize := by
  unfold OpLog.spurious at taken
  split at taken
  · rename_i seq found
    cases taken
    apply sound.set
    exact ⟨(sound.served _ (List.mem_of_getElem? found)).appended, nofun, nofun⟩
  · cases taken

theorem Sound.timeout (sound : s.Sound batchSize) (taken : s.timeout = some s') :
    s'.Sound batchSize := by
  unfold OpLog.timeout at taken
  split at taken
  · rename_i deadline filling
    split at taken
    · cases taken
      apply sound.wake (by rw [filling]; rfl)
      exact .inr ⟨deadline, rfl, filling⟩
    · cases taken
  · cases taken

theorem Sound.step {a : Action} (sound : s.Sound batchSize)
    (taken : s.step batchSize maxDelay a = some s') : s'.Sound batchSize := by
  cases a with
  | append =>
      cases taken
      exact sound.append
  | waitFlushed seq =>
      simp only [OpLog.step, Option.ite_none_right_eq_some, Option.some.injEq] at taken
      obtain ⟨appended, rfl⟩ := taken
      exact sound.waitFlushed appended
  | stop =>
      cases taken
      exact sound.stop
  | advance passed =>
      simp only [OpLog.step, Option.ite_none_right_eq_some, Option.some.injEq] at taken
      obtain ⟨-, rfl⟩ := taken
      exact sound.advance
  | spuriousFlusher =>
      cases taken
      exact sound.woken s.woken.notifies s.woken.notifyAll
  | spurious i => exact sound.spurious taken
  | notify =>
      simp only [OpLog.step, OpLog.notify, Option.ite_none_left_eq_some, Option.some.injEq]
        at taken
      obtain ⟨-, rfl⟩ := taken
      exact sound.woken _ s.woken.notifyAll
  | wakeAll =>
      simp only [OpLog.step, OpLog.wakeAll, Option.ite_none_right_eq_some, Option.some.injEq]
        at taken
      obtain ⟨-, rfl⟩ := taken
      exact sound.woken s.woken.notifies _
  | timeout => exact sound.timeout taken
  | look => exact sound.look taken
  | write => exact sound.write taken
  | publish => exact sound.publish taken
  | announce rotates => exact sound.announce taken
  | test i => exact sound.test taken

theorem sound_initial (initial : s.Initial) : s.Sound batchSize := by
  obtain ⟨now, rfl⟩ := initial
  exact ⟨⟨Nat.one_pos, rfl, nofun, rfl⟩, ⟨nofun, nofun, nofun, nofun⟩, nofun⟩

theorem sound_always
    (reachable : Reachable (OpLog.step batchSize maxDelay) Initial (fun _ _ => True) s) :
    s.Sound batchSize :=
  reachable.invariant (fun _ => sound_initial) fun _ _ _ sound _ taken => sound.step taken

/-- What `WaitFlushed` returns for has been given to the sinks with all that came before it. -/
theorem returned_written
    (reachable : Reachable (OpLog.step batchSize maxDelay) Initial (fun _ _ => True) s) :
    s.written = List.range' 1 s.written.length ∧ s.written.length < s.nextSeq ∧
      ∀ call ∈ s.calls, call.wait = .returned →
        call.seq ≤ s.written.length ∨ s.stopping = true := by
  have sound := sound_always reachable
  obtain ⟨written, next, -⟩ := sound.ordered.written
  refine ⟨written, next, fun call member returned => ?_⟩
  have flushed := sound.ordered.flushed_le
  exact ((sound.served call member).returned returned).imp_left fun le => le.trans flushed

end

/-! ## The threads come to rest -/

def flusherWork (now : TimePoint) (calls : Nat) : Flusher → Nat
  | .testing => 5
  | .filling deadline true => if deadline ≤ now then 4 else 0
  | .filling _ false => 3
  | .writing _ => calls + 9
  | .publishing _ => calls + 8
  | .notifying => calls + 7
  | .rotating => 6
  | .waiting | .ended => 0

/-- A bound on the steps that are left if nothing is appended. -/
def work (s : OpLog) : Nat :=
  (s.calls.length + 10) * s.pending.length + flusherWork s.now s.calls.length s.flusher +
    s.calls.countP Call.isLooking + 6 * s.notifies + if s.notifyAll then 6 else 0

section
variable {batchSize : Nat} {maxDelay : Duration} {s s' : OpLog} {i : Nat}

theorem woken_eq : ∃ flusher, s.woken = { s with flusher } ∧
    ∀ calls, flusherWork s.now calls flusher ≤ flusherWork s.now calls s.flusher + 5 := by
  unfold OpLog.woken
  split
  · exact ⟨_, rfl, fun _ => Nat.le_add_left _ _⟩
  · exact ⟨_, rfl, fun _ => (Nat.le_add_left 3 2).trans (Nat.le_add_left _ _)⟩
  · exact ⟨_, rfl, fun _ => Nat.le_add_right _ _⟩

theorem work_notify (taken : s.notify = some s') : s'.work < s.work := by
  simp only [OpLog.notify, Option.ite_none_left_eq_some, Option.some.injEq] at taken
  obtain ⟨due, rfl⟩ := taken
  obtain ⟨flusher, woken, bound⟩ := woken_eq (s := s)
  have bound := bound s.calls.length
  rw [woken]
  unfold work
  dsimp only
  omega

theorem work_wakeAll (taken : s.wakeAll = some s') : s'.work < s.work := by
  simp only [OpLog.wakeAll, Option.ite_none_right_eq_some, Option.some.injEq] at taken
  obtain ⟨due, rfl⟩ := taken
  obtain ⟨flusher, woken, bound⟩ := woken_eq (s := s)
  have bound := bound s.calls.length
  rw [woken]
  unfold work
  dsimp only
  rw [if_pos due, if_neg Bool.false_ne_true]
  omega

theorem work_timeout (taken : s.timeout = some s') : s'.work < s.work := by
  unfold OpLog.timeout at taken
  split at taken
  · rename_i deadline filling
    split at taken
    · rename_i late
      cases taken
      unfold work
      simp only [filling, flusherWork]
      rw [if_pos late]
      omega
    · cases taken
  · cases taken

theorem work_collect (some : s.pending ≠ []) : s.collect.work < s.work := by
  have product : s.calls.length + 10 ≤ (s.calls.length + 10) * s.pending.length :=
    Nat.le_mul_of_pos_right _ (List.length_pos_iff.mpr some)
  unfold work OpLog.collect
  simp only [flusherWork, List.length_nil, Nat.mul_zero]
  omega

theorem work_look (sound : s.Sound batchSize) (taken : s.look batchSize maxDelay = some s') :
    s'.work < s.work := by
  unfold OpLog.look at taken
  split at taken
  · rename_i testing
    split at taken
    · have none : ∀ ends : Bool, flusherWork s.now s.calls.length
          (if ends = true then .ended else .waiting) = 0 := by
        intro ends
        cases ends <;> rfl
      cases taken
      unfold work
      dsimp only
      rw [none, testing]
      simp only [flusherWork]
      omega
    · rename_i some
      split at taken
      · cases taken
        exact work_collect fun none => some (List.isEmpty_iff.mpr none)
      · cases taken
        unfold work
        simp only [testing, flusherWork]
        split <;> omega
  · rename_i deadline filling
    split at taken
    · cases taken
      exact work_collect (sound.alert.filling deadline false filling).1
    · rename_i early
      cases taken
      simp only [Bool.or_eq_true, decide_eq_true_eq, not_or] at early
      unfold work
      simp only [filling, flusherWork]
      rw [if_neg early.2]
      omega
  · rename_i rotating
    split at taken
    · cases taken
      unfold work
      simp only [rotating, flusherWork]
      omega
    · rename_i some
      cases taken
      exact work_collect fun none => some (List.isEmpty_iff.mpr none)
  · cases taken

theorem work_write (taken : s.write = some s') : s'.work < s.work := by
  unfold OpLog.write at taken
  split at taken
  · rename_i batch writing
    cases taken
    unfold work
    simp only [writing, flusherWork]
    omega
  · cases taken

theorem work_publish (taken : s.publish = some s') : s'.work < s.work := by
  unfold OpLog.publish at taken
  split at taken
  · rename_i last publishing
    cases taken
    unfold work
    simp only [publishing, flusherWork]
    omega
  · cases taken

theorem work_announce {rotates : Bool} (taken : s.announce rotates = some s') :
    s'.work < s.work := by
  unfold OpLog.announce at taken
  split at taken
  · rename_i notifying
    cases taken
    have looking : (s.calls.map Call.wake).countP Call.isLooking ≤ s.calls.length :=
      List.countP_le_length.trans (List.length_map _).le
    unfold work
    simp only [notifying, List.length_map]
    cases rotates <;> simp only [flusherWork, Bool.false_eq_true, if_false, if_true] <;> omega
  · cases taken

theorem work_test (taken : s.test i = some s') : s'.work < s.work := by
  unfold OpLog.test at taken
  split at taken
  · rename_i seq found
    cases taken
    obtain ⟨wait, isWait, other⟩ : ∃ wait : Wait, wait =
        (if s.flushedSeq < seq ∧ s.stopping = false then .waiting else .returned) ∧
          Call.isLooking { seq, wait } = false := by
      refine ⟨_, rfl, ?_⟩
      unfold Call.isLooking
      split <;> rfl
    rw [← isWait]
    have count := countP_set_add Call.isLooking { seq, wait } found
    have before : Call.isLooking { seq } = true := rfl
    rw [other, before, Bool.toNat_false, Bool.toNat_true] at count
    unfold work
    dsimp only
    rw [List.length_set]
    omega
  · cases taken

theorem work_lt {a : Action} (sound : s.Sound batchSize) (internal : a.isInternal = true)
    (taken : s.step batchSize maxDelay a = some s') : s'.work < s.work := by
  cases a with
  | append | waitFlushed | stop | advance | spuriousFlusher | spurious => cases internal
  | notify => exact work_notify taken
  | wakeAll => exact work_wakeAll taken
  | timeout => exact work_timeout taken
  | look => exact work_look sound taken
  | write => exact work_write taken
  | publish => exact work_publish taken
  | announce rotates => exact work_announce taken
  | test i => exact work_test taken

/-- No thread can go on and no notification is to come. -/
def Idle (batchSize : Nat) (maxDelay : Duration) (s : OpLog) : Prop :=
  ∀ a : Action, a.isInternal = true → s.step batchSize maxDelay a = none

/-- The flusher waits for a batch that is not full and whose time has not come. -/
def Filling (batchSize : Nat) (s : OpLog) : Prop :=
  ∃ deadline, s.flusher = .filling deadline true ∧ s.now < deadline ∧
    s.pending.length < batchSize ∧ s.stopping = false

/-- Whoever has not returned waits for a record of the batch. -/
structure Settled (batchSize : Nat) (s : OpLog) : Prop where
  flusher : s.flusher = .waiting ∧ s.pending = [] ∧ s.stopping = false ∨ s.Filling batchSize ∨
    s.flusher = .ended ∧ s.stopping = true
  calls : ∀ call ∈ s.calls, call.wait = .returned ∨ s.Filling batchSize ∧ call.seq ∈ s.pending

theorem Idle.flusher (idle : s.Idle batchSize maxDelay) (sound : s.Sound batchSize) :
    s.flusher = .waiting ∧ s.pending = [] ∧ s.stopping = false ∨ s.Filling batchSize ∨
      s.flusher = .ended ∧ s.stopping = true := by
  have quiet : s.notifies = 0 := by
    have taken := idle .notify rfl
    simpa [step, OpLog.notify] using taken
  have told : s.notifyAll = false := by
    have taken := idle .wakeAll rfl
    simpa [step, OpLog.wakeAll] using taken
  have goes : s.flusher.isAsleep = true → s.stopping = false := by
    intro asleep
    by_contra stops
    rcases sound.alert.stopped (by simpa using stops) with due | awake
    · cases told.symm.trans due
    · cases asleep.symm.trans awake
  cases flusher : s.flusher with
  | testing =>
      have taken := idle .look rfl
      simp only [step, OpLog.look, flusher] at taken
      split at taken
      · cases taken
      · split at taken <;> cases taken
  | waiting =>
      rw [flusher] at goes
      refine .inl ⟨rfl, ?_, goes rfl⟩
      rcases sound.alert.waiting flusher with due | none
      · omega
      · exact none
  | filling deadline asleep =>
      cases asleep with
      | true =>
          rw [flusher] at goes
          refine .inr (.inl ⟨deadline, flusher, ?_, ?_, goes rfl⟩)
          · have taken := idle .timeout rfl
            simpa [step, OpLog.timeout, flusher] using taken
          · rcases (sound.alert.filling deadline true flusher).2 rfl with due | few
            · omega
            · exact few
      | false =>
          have taken := idle .look rfl
          simp only [step, OpLog.look, flusher] at taken
          split at taken <;> cases taken
  | writing batch =>
      have taken := idle .write rfl
      simp [step, OpLog.write, flusher] at taken
  | publishing last =>
      have taken := idle .publish rfl
      simp [step, OpLog.publish, flusher] at taken
  | notifying =>
      have taken := idle (.announce false) rfl
      simp [step, OpLog.announce, flusher] at taken
  | rotating =>
      have taken := idle .look rfl
      simp [step, OpLog.look, flusher] at taken
  | ended => exact .inr (.inr ⟨rfl, sound.alert.ended flusher⟩)

theorem Idle.settled (idle : s.Idle batchSize maxDelay) (sound : s.Sound batchSize) :
    s.Settled batchSize := by
  have flusher := idle.flusher sound
  refine ⟨flusher, fun call member => ?_⟩
  have served := sound.served call member
  cases wait : call.wait with
  | returned => exact .inl rfl
  | looking =>
      obtain ⟨i, found⟩ := List.mem_iff_getElem?.mp member
      have taken := idle (.test i) rfl
      obtain ⟨seq, wait'⟩ := call
      cases wait
      simp [step, OpLog.test, found] at taken
  | waiting =>
      right
      obtain ⟨running, behind⟩ := served.waiting wait
      obtain ⟨-, -, rest⟩ := sound.ordered.written
      have appended := served.appended
      rcases flusher with ⟨waiting, none, -⟩ | filling | ⟨ended, -⟩
      · have plain : s.flusher.isPlain = true := by rw [waiting]; rfl
        have flushed := sound.ordered.flushed_eq plain
        have behind := behind.resolve_right (by simp [waiting])
        rw [none, inHand_plain plain] at rest
        have all := congrArg List.length rest
        rw [List.length_range'] at all
        simp only [List.append_nil, List.length_nil] at all
        omega
      · refine ⟨filling, ?_⟩
        obtain ⟨deadline, filling, -⟩ := filling
        have plain : s.flusher.isPlain = true := by rw [filling]; rfl
        have flushed := sound.ordered.flushed_eq plain
        have behind := behind.resolve_right (by simp [filling])
        rw [inHand_plain plain, List.nil_append] at rest
        rw [rest, List.mem_range'_1]
        omega
      · exact absurd ended running

/-- In whatever order the threads go on, they come to rest, and then a call has returned or its
record waits for its batch. -/
theorem comes_to_rest
    (reachable : Reachable (OpLog.step batchSize maxDelay) Initial (fun _ _ => True) s)
    {actions : List Action} (internal : ∀ a ∈ actions, a.isInternal = true)
    (ran : run (OpLog.step batchSize maxDelay) s actions = some s') :
    actions.length ≤ s.work ∧ (s'.Idle batchSize maxDelay → s'.Settled batchSize) := by
  have meets : Meets (OpLog.step batchSize maxDelay) (fun _ a => a.isInternal = true) s actions :=
    meets_of_forall fun _ a member => internal a member
  have sound : s.Sound batchSize := sound_always reachable
  constructor
  · have bound := length_add_le_of_run work
      (fun _ _ _ sound internal taken => ⟨Sound.step sound taken, work_lt sound internal taken⟩)
      sound meets ran
    omega
  · intro idle
    apply idle.settled
    apply sound_always
    exact reachable.run (meets_of_forall fun _ _ _ => trivial) ran

end

end OpLog

/-! ## Two handlers and a batch of two records

The first batch is full, and the third record has to wait for its time; a rotation then finds
the queue empty. -/

def two : List Action :=
  [.look, .append, .waitFlushed 1, .test 0, .append, .waitFlushed 2, .notify, .look, .write]

def going : List Action := [.notify, .publish, .announce true, .look, .look, .test 0, .test 1]

def third : List Action := [.append, .waitFlushed 3, .notify, .look, .test 2]

def bothServed : OpLog where
  nextSeq := 3
  flushedSeq := 2
  flusher := .waiting
  calls := [{ seq := 1, wait := .returned }, { seq := 2, wait := .returned }]
  written := [1, 2]

theorem bothServed_idle : bothServed.Idle 2 10 := by
  intro a internal
  cases a with
  | test i =>
      cases i with
      | zero => rfl
      | succ i =>
          cases i with
          | zero => rfl
          | succ i => rfl
  | notify | wakeAll | timeout | look | write | publish | announce => rfl
  | append | waitFlushed | stop | advance | spuriousFlusher | spurious => cases internal

theorem comes_to_rest_two : ∃ s, run (OpLog.step 2 10) {} two = some s ∧
    run (OpLog.step 2 10) s going = some bothServed ∧ going.length ≤ s.work ∧
      bothServed.Settled 2 := by
  obtain ⟨s, ran⟩ := Option.isSome_iff_exists.mp
    (rfl : (run (OpLog.step 2 10) {} two).isSome = true)
  have whole : (run (OpLog.step 2 10) {} two).bind (run (OpLog.step 2 10) · going) =
      some bothServed := rfl
  rw [ran, Option.bind_some] at whole
  obtain ⟨bound, settled⟩ :=
    OpLog.comes_to_rest (reachable_run_true ⟨0, rfl⟩ ran) (by decide) whole
  exact ⟨s, ran, whole, bound, settled bothServed_idle⟩

def thirdWaits : OpLog :=
  { bothServed with
    pending := [3]
    nextSeq := 4
    flusher := .filling 10 true
    calls := bothServed.calls ++ [{ seq := 3, wait := .waiting }] }

theorem returned_written_two : thirdWaits.written.length < thirdWaits.nextSeq ∧
    ∀ call ∈ thirdWaits.calls, call.wait = .returned →
      call.seq ≤ thirdWaits.written.length ∨ thirdWaits.stopping = true := by
  have ran : run (OpLog.step 2 10) {} (two ++ going ++ third) = some thirdWaits := rfl
  exact (OpLog.returned_written (reachable_run_true ⟨0, rfl⟩ ran)).2

end Gfs.Master.GroupCommit
