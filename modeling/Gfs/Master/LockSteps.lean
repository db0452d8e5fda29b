import Gfs.Lib.Maps
import Gfs.Lib.Transition
import Gfs.Master.LockTable
import Mathlib.Data.List.Nodup

/-!
# Threads at the lock table

`Acquire` takes the locks of its ordered list one by one and waits inside `LockOne` for each that is
not free; `Release` gives them back in the reverse order. A step is a section under the mutex of the
table. Calls and `LockSet`s are numbered and any number of them may be in progress.
-/

namespace Gfs.Master.LockTable
open Lib.Transition Std

structure Entry where
  readers : Int := 0
  writer : Bool := false
  waitingWriters : Int := 0
  refs : Int := 0
deriving DecidableEq

/-- A call of `Acquire` or of `Release`. `waiting` is inside `cv.wait`; once it is notified, it has
only to get the mutex again. -/
inductive Call
  | locking (got todo : List LockRequest)
  | waiting (got : List LockRequest) (r : LockRequest) (todo : List LockRequest) (notified : Bool)
  | unlocking (left : List LockRequest)
  | ended
deriving DecidableEq

structure State where
  entries : ExtTreeMap Str Entry := ∅
  calls : List Call := []
  sets : List (List LockRequest) := []

/-! ## `LockOne` and `UnlockOne` -/

namespace Entry

/-- The condition of the loop in `LockOne`. -/
def blocked (e : Entry) : LockMode → Bool
  | .write => decide (0 < e.readers) || e.writer
  | .read => e.writer || decide (0 < e.waitingWriters)

def take (e : Entry) : LockMode → Entry
  | .write => { e with writer := true }
  | .read => { e with readers := e.readers + 1 }

def leave (e : Entry) : LockMode → Entry
  | .write => { e with writer := false }
  | .read => { e with readers := e.readers - 1 }

/-- A writer is counted while it waits. -/
def park (e : Entry) : LockMode → Entry
  | .write => { e with waitingWriters := e.waitingWriters + 1 }
  | .read => e

def unpark (e : Entry) : LockMode → Entry
  | .write => { e with waitingWriters := e.waitingWriters - 1 }
  | .read => e

end Entry

namespace State

def entryLocked (s : State) (path : Str) : Entry := s.entries[path]?.getD {}

/-- The loop of `LockOne` from one test of its condition: it waits, or the lock is taken. -/
def turn (s : State) (i : Nat) (got : List LockRequest) (r : LockRequest) (todo : List LockRequest)
    (e : Entry) : State :=
  if e.blocked r.mode then
    { s with
      entries := s.entries.insert r.path (e.park r.mode)
      calls := s.calls.set i (.waiting got r todo false) }
  else
    { s with
      entries := s.entries.insert r.path (e.take r.mode)
      calls := s.calls.set i (.locking (got ++ [r]) todo) }

def lock (s : State) (i : Nat) : Option State :=
  match s.calls[i]? with
  | some (.locking got (r :: todo)) =>
      let e := s.entryLocked r.path
      some (s.turn i got r todo { e with refs := e.refs + 1 })
  | _ => none

/-- `cv.wait` returns, notified or not. -/
def wake (s : State) (i : Nat) : Option State :=
  match s.calls[i]? with
  | some (.waiting got r todo _) =>
      s.entries[r.path]?.map fun e => s.turn i got r todo (e.unpark r.mode)
  | _ => none

end State

/-- `notify_all` on the entry of this path. -/
def Call.notify (path : Str) : Call → Call
  | .waiting got r todo notified => .waiting got r todo (notified || r.path = path)
  | call => call

namespace State

def unlockOne (s : State) (r : LockRequest) : State :=
  match s.entries[r.path]? with
  | none => s
  | some e =>
      let e := { e.leave r.mode with refs := e.refs - 1 }
      { s with
        entries := if e.refs = 0 then s.entries.erase r.path else s.entries.insert r.path e
        calls := s.calls.map (Call.notify r.path) }

/-! ## `Acquire`, `Release` and `LockSet` -/

def acquire (s : State) (requests : List LockRequest) : State :=
  { s with calls := s.calls ++ [.locking [] (normalize requests)] }

/-- `Acquire` returns its `LockSet`. -/
def finish (s : State) (i : Nat) : Option State :=
  match s.calls[i]? with
  | some (.locking got []) => some { s with calls := s.calls.set i .ended, sets := s.sets ++ [got] }
  | _ => none

/-- `LockSet::Release`, also in the destructor. -/
def release (s : State) (k : Nat) : Option State :=
  match s.sets[k]? with
  | some held => some { s with sets := s.sets.set k [], calls := s.calls ++ [.unlocking held] }
  | none => none

/-- The next turn of the loop in `LockTable::Release`. -/
def unlock (s : State) (i : Nat) : Option State :=
  match s.calls[i]? with
  | some (.unlocking left) =>
      match left.getLast? with
      | none => some { s with calls := s.calls.set i .ended }
      | some r => some (unlockOne { s with calls := s.calls.set i (.unlocking left.dropLast) } r)
  | _ => none

/-- The move constructor of `LockSet`. -/
def move (s : State) (k : Nat) : Option State :=
  match s.sets[k]? with
  | some held => some { s with sets := s.sets.set k [] ++ [held] }
  | none => none

/-- The assignment from another `LockSet`, after the `Release` that it begins with. -/
def assign (s : State) (k l : Nat) : Option State :=
  match s.sets[k]?, s.sets[l]? with
  | some [], some held => some { s with sets := (s.sets.set l []).set k held }
  | _, _ => none

end State

inductive Step
  | acquire (requests : List LockRequest)
  | lock (i : Nat)
  | wake (i : Nat)
  | finish (i : Nat)
  | release (k : Nat)
  | unlock (i : Nat)
  | move (k : Nat)
  | assign (k l : Nat)

namespace State

def step (s : State) : Step → Option State
  | .acquire requests => some (s.acquire requests)
  | .lock i => s.lock i
  | .wake i => s.wake i
  | .finish i => s.finish i
  | .release k => s.release k
  | .unlock i => s.unlock i
  | .move k => s.move k
  | .assign k l => s.assign k l

def Initial (s : State) : Prop := s = {}

end State

/-! ## Holders and waiters -/

def Call.held : Call → List LockRequest
  | .locking got _ | .waiting got _ _ _ => got
  | .unlocking left => left
  | .ended => []

def Call.awaited : Call → List LockRequest
  | .waiting _ r _ _ => [r]
  | _ => []

namespace State

/-- The locks of every call and of every `LockSet`. -/
def holders (s : State) : List (List LockRequest) := s.calls.map Call.held ++ s.sets

def held (s : State) (path : Str) (mode : LockMode) : Nat := s.holders.flatten.count ⟨path, mode⟩

def awaited (s : State) (path : Str) (mode : LockMode) : Nat :=
  (s.calls.flatMap Call.awaited).count ⟨path, mode⟩

end State

/-- The entry counts these holders and waiters, and `inside` threads that are in `LockOne` but
neither hold nor wait. -/
structure Entry.Counts (e : Entry) (held awaited : LockMode → Nat) (inside : Nat) : Prop where
  readers : e.readers = held .read
  writer : held .write = e.writer.toNat
  apart : e.writer = true → held .read = 0
  waitingWriters : e.waitingWriters = awaited .write
  refs : e.refs = held .read + held .write + awaited .read + awaited .write + inside

section
variable {e : Entry} {held held' awaited awaited' : LockMode → Nat} {mode : LockMode}

theorem Entry.Counts.enter (counts : e.Counts held awaited 0) :
    { e with refs := e.refs + 1 : Entry }.Counts held awaited 1 where
  readers := counts.readers
  writer := counts.writer
  apart := counts.apart
  waitingWriters := counts.waitingWriters
  refs := by
    have refs := counts.refs
    dsimp only
    omega

theorem Entry.Counts.unpark (counts : e.Counts held awaited 0)
    (one : ∀ m, awaited m = awaited' m + if m = mode then 1 else 0) :
    (e.unpark mode).Counts held awaited' 1 := by
  obtain ⟨readers, writer, apart, waiting, refs⟩ := counts
  have oneRead := one .read
  have oneWrite := one .write
  cases mode with
  | read =>
      simp only [if_true, reduceCtorEq, if_false] at oneRead oneWrite
      exact ⟨readers, writer, apart, by rw [Entry.unpark]; omega, by rw [Entry.unpark]; omega⟩
  | write =>
      simp only [if_true, reduceCtorEq, if_false] at oneRead oneWrite
      refine ⟨readers, writer, apart, ?_, ?_⟩
      · dsimp only [Entry.unpark]
        omega
      · dsimp only [Entry.unpark]
        omega

theorem Entry.Counts.park (counts : e.Counts held awaited 1)
    (one : ∀ m, awaited' m = awaited m + if m = mode then 1 else 0) :
    (e.park mode).Counts held awaited' 0 := by
  obtain ⟨readers, writer, apart, waiting, refs⟩ := counts
  have oneRead := one .read
  have oneWrite := one .write
  cases mode with
  | read =>
      simp only [if_true, reduceCtorEq, if_false] at oneRead oneWrite
      exact ⟨readers, writer, apart, by rw [Entry.park]; omega, by rw [Entry.park]; omega⟩
  | write =>
      simp only [if_true, reduceCtorEq, if_false] at oneRead oneWrite
      refine ⟨readers, writer, apart, ?_, ?_⟩
      · dsimp only [Entry.park]
        omega
      · dsimp only [Entry.park]
        omega

theorem Entry.Counts.take (counts : e.Counts held awaited 1) (free : e.blocked mode = false)
    (one : ∀ m, held' m = held m + if m = mode then 1 else 0) :
    (e.take mode).Counts held' awaited 0 := by
  obtain ⟨readers, writer, apart, waiting, refs⟩ := counts
  have oneRead := one .read
  have oneWrite := one .write
  cases mode with
  | read =>
      simp only [if_true, reduceCtorEq, if_false] at oneRead oneWrite
      have noWriter : e.writer = false := (Bool.or_eq_false_iff.mp free).1
      refine ⟨?_, ?_, ?_, waiting, ?_⟩
      · dsimp only [Entry.take]
        omega
      · exact oneWrite.trans writer
      · intro writing
        cases noWriter.symm.trans writing
      · dsimp only [Entry.take]
        omega
  | write =>
      simp only [if_true, reduceCtorEq, if_false] at oneRead oneWrite
      obtain ⟨noReader, noWriter⟩ := Bool.or_eq_false_iff.mp free
      have none : ¬ 0 < e.readers := of_decide_eq_false noReader
      rw [noWriter, Bool.toNat_false] at writer
      refine ⟨?_, ?_, fun _ => ?_, waiting, ?_⟩
      · dsimp only [Entry.take]
        omega
      · dsimp only [Entry.take, Bool.toNat_true]
        omega
      · omega
      · dsimp only [Entry.take]
        omega

theorem Entry.Counts.leave (counts : e.Counts held awaited 0)
    (one : ∀ m, held m = held' m + if m = mode then 1 else 0) :
    { e.leave mode with refs := e.refs - 1 : Entry }.Counts held' awaited 0 := by
  obtain ⟨readers, writer, apart, waiting, refs⟩ := counts
  have oneRead := one .read
  have oneWrite := one .write
  cases mode with
  | read =>
      simp only [if_true, reduceCtorEq, if_false] at oneRead oneWrite
      refine ⟨?_, ?_, fun writing => ?_, waiting, ?_⟩
      · dsimp only [Entry.leave]
        omega
      · exact oneWrite.symm.trans writer
      · have nobody := apart writing
        omega
      · dsimp only
        omega
  | write =>
      simp only [if_true, reduceCtorEq, if_false] at oneRead oneWrite
      have short : e.writer.toNat ≤ 1 := Bool.toNat_le e.writer
      refine ⟨?_, ?_, nofun, waiting, ?_⟩
      · dsimp only [Entry.leave]
        omega
      · dsimp only [Entry.leave, Bool.toNat_false]
        omega
      · dsimp only
        omega

/-- Nobody holds a lock that a thread has to wait for, or a writer waits for it too. -/
theorem Entry.Counts.blocker {inside : Nat} (counts : e.Counts held awaited inside)
    (blocked : e.blocked mode = true) :
    0 < held .read ∧ mode = .write ∨ 0 < held .write ∨ mode = .read ∧ 0 < awaited .write := by
  have readers := counts.readers
  have writer := counts.writer
  have waiting := counts.waitingWriters
  cases mode with
  | read =>
      rcases Bool.or_eq_true_iff.mp blocked with writing | waits
      · rw [writing, Bool.toNat_true] at writer
        exact .inr (.inl (by omega))
      · have some : 0 < e.waitingWriters := of_decide_eq_true waits
        exact .inr (.inr ⟨rfl, by omega⟩)
  | write =>
      rcases Bool.or_eq_true_iff.mp blocked with reading | writing
      · have some : 0 < e.readers := of_decide_eq_true reading
        exact .inl ⟨by omega, rfl⟩
      · rw [writing, Bool.toNat_true] at writer
        exact .inr (.inl (by omega))

end

/-! ## Counting -/

theorem Entry.Counts.empty {e : Entry} {held awaited : LockMode → Nat}
    (counts : e.Counts held awaited 0) (unused : e.refs = 0) :
    Entry.Counts {} held awaited 0 := by
  have refs := counts.refs
  have short : held .write = 0 ∧ held .read = 0 ∧ awaited .read = 0 ∧ awaited .write = 0 := by omega
  obtain ⟨write, read, waitRead, waitWrite⟩ := short
  exact ⟨by rw [read]; rfl, write, nofun, by rw [waitWrite]; rfl,
    by rw [read, write, waitRead, waitWrite]; rfl⟩

theorem count_flatten_set {β : Type} [DecidableEq β] {l : List (List β)} {i : Nat} {c d : List β}
    (found : l[i]? = some c) (b : β) :
    (l.set i d).flatten.count b + c.count b = l.flatten.count b + d.count b := by
  induction l generalizing i with
  | nil => cases found
  | cons first rest ih =>
      cases i with
      | zero =>
          obtain rfl : first = c := Option.some.inj found
          simp only [List.set_cons_zero, List.flatten_cons, List.count_append]
          omega
      | succ i =>
          have rest := @ih i found
          simp only [List.set_cons_succ, List.flatten_cons, List.count_append]
          omega

/-- The entries count the holders and the waiters of their paths, and there are no others. -/
structure State.Counted (s : State) : Prop where
  counts : ∀ path, (s.entryLocked path).Counts (s.held path) (s.awaited path) 0
  used : ∀ (path : Str) (e : Entry), s.entries[path]? = some e → 0 < e.refs

namespace State
variable {s s' t : State} {i k : Nat} {c d : Call} {r : LockRequest} {got todo : List LockRequest}

theorem held_set (found : s.calls[i]? = some c) (calls : t.calls = s.calls.set i d)
    (sets : t.sets = s.sets) (path : Str) (mode : LockMode) :
    t.held path mode + c.held.count ⟨path, mode⟩ = s.held path mode + d.held.count ⟨path, mode⟩ := by
  have there : (s.calls.map Call.held)[i]? = some c.held := by simp [found]
  have moved := count_flatten_set (d := d.held) there ⟨path, mode⟩
  simp only [held, holders, calls, sets, List.map_set, List.flatten_append, List.count_append]
  omega

theorem awaited_set (found : s.calls[i]? = some c) (calls : t.calls = s.calls.set i d)
    (path : Str) (mode : LockMode) :
    t.awaited path mode + c.awaited.count ⟨path, mode⟩ =
      s.awaited path mode + d.awaited.count ⟨path, mode⟩ := by
  have there : (s.calls.map Call.awaited)[i]? = some c.awaited := by simp [found]
  have moved := count_flatten_set (d := d.awaited) there ⟨path, mode⟩
  rw [← List.map_set] at moved
  simp only [awaited, calls, List.flatMap_def]
  exact moved

theorem count_one (path : Str) (mode : LockMode) :
    [r].count ⟨path, mode⟩ = if r.path = path ∧ mode = r.mode then 1 else 0 := by
  obtain ⟨p, m⟩ := r
  simp only [List.count_singleton, beq_iff_eq, LockRequest.mk.injEq]
  exact if_congr (and_congr_right fun _ => eq_comm) rfl rfl

theorem Counted.update {path : Str} {e : Entry} (counts : e.Counts (s'.held path) (s'.awaited path) 0)
    (positive : 0 < e.refs) (entries : s'.entries = s.entries.insert path e)
    (others : ∀ other, path ≠ other →
      (s.entryLocked other).Counts (s'.held other) (s'.awaited other) 0)
    (used : ∀ (path : Str) (e : Entry), s.entries[path]? = some e → 0 < e.refs) : s'.Counted := by
  refine ⟨fun other => ?_, fun other e' found => ?_⟩
  · rw [entryLocked, entries, Lib.Maps.getElem?_insert]
    by_cases eq : path = other
    · subst eq
      rw [if_pos rfl]
      exact counts
    · rw [if_neg eq]
      exact others other eq
  · rw [entries, Lib.Maps.getElem?_insert] at found
    split at found
    · obtain rfl := Option.some.inj found
      exact positive
    · exact used other e' found

theorem Counted.turn {e : Entry} (found : s.calls[i]? = some (.locking got (r :: todo)))
    (counts : e.Counts (s.held r.path) (s.awaited r.path) 1)
    (others : ∀ path, r.path ≠ path →
      (s.entryLocked path).Counts (s.held path) (s.awaited path) 0)
    (used : ∀ (path : Str) (e : Entry), s.entries[path]? = some e → 0 < e.refs) :
    (s.turn i got r todo e).Counted := by
  have positive : 0 < e.refs := by
    have refs := counts.refs
    omega
  by_cases blocked : e.blocked r.mode = true
  · have result : s.turn i got r todo e =
        ⟨s.entries.insert r.path (e.park r.mode),
          s.calls.set i (.waiting got r todo false), s.sets⟩ := if_pos blocked
    generalize s.turn i got r todo e = s' at result
    have calls : s'.calls = s.calls.set i (.waiting got r todo false) := by rw [result]
    have holds := held_set found calls (by rw [result])
    have waits := awaited_set found calls
    simp only [Call.held, Call.awaited, List.count_nil, count_one] at holds waits
    have same : ∀ path, s'.held path = s.held path := fun path =>
      funext fun mode => Nat.add_right_cancel (holds path mode)
    refine .update (s := s) ?_ ?_ (by rw [result]) (fun path eq => ?_) used
    · rw [same]
      refine counts.park fun mode => ?_
      have one := waits r.path mode
      simp only [true_and] at one
      exact one
    · cases r.mode with
      | read => exact positive
      | write => exact positive
    · have free : s'.awaited path = s.awaited path := by
        funext mode
        have none := waits path mode
        rw [if_neg fun both => eq both.1] at none
        exact none
      rw [same, free]
      exact others path eq
  · have result : s.turn i got r todo e =
        ⟨s.entries.insert r.path (e.take r.mode),
          s.calls.set i (.locking (got ++ [r]) todo), s.sets⟩ := if_neg blocked
    generalize s.turn i got r todo e = s' at result
    have calls : s'.calls = s.calls.set i (.locking (got ++ [r]) todo) := by rw [result]
    have holds := held_set found calls (by rw [result])
    have waits := awaited_set found calls
    simp only [Call.held, Call.awaited, List.count_nil, List.count_append, count_one] at holds waits
    have same : ∀ path, s'.awaited path = s.awaited path := fun path =>
      funext fun mode => waits path mode
    refine .update (s := s) ?_ ?_ (by rw [result]) (fun path eq => ?_) used
    · rw [same]
      refine counts.take (Bool.eq_false_iff.mpr blocked) fun mode => ?_
      have one := holds r.path mode
      simp only [true_and] at one
      omega
    · cases r.mode with
      | read => exact positive
      | write => exact positive
    · have kept : s'.held path = s.held path := by
        funext mode
        have none := holds path mode
        rw [if_neg fun both => eq both.1] at none
        omega
      rw [kept, same]
      exact others path eq

theorem Counted.lock (counted : s.Counted) (taken : s.lock i = some s') : s'.Counted := by
  unfold State.lock at taken
  split at taken
  · rename_i got r todo found
    cases taken
    exact .turn found (counted.counts r.path).enter (fun path _ => counted.counts path) counted.used
  · cases taken

theorem turn_set (e : Entry) (call : Call) :
    State.turn { s with calls := s.calls.set i call } i got r todo e = s.turn i got r todo e := by
  simp only [State.turn, List.set_set]

theorem Counted.wake (counted : s.Counted) (taken : s.wake i = some s') : s'.Counted := by
  unfold State.wake at taken
  split at taken
  · rename_i got r todo notified found
    obtain ⟨e, stored, rfl⟩ := Option.map_eq_some_iff.mp taken
    rw [← turn_set _ (.locking got (r :: todo))]
    have bound : i < s.calls.length := (List.getElem?_eq_some_iff.mp found).1
    obtain ⟨inside, result⟩ : ∃ inside : State,
        inside = { s with calls := s.calls.set i (.locking got (r :: todo)) } := ⟨_, rfl⟩
    rw [← result]
    have calls : inside.calls = s.calls.set i (.locking got (r :: todo)) := by rw [result]
    have entries : inside.entries = s.entries := by rw [result]
    have holds := held_set found calls (by rw [result])
    have waits := awaited_set found calls
    simp only [Call.held, Call.awaited, List.count_nil, count_one] at holds waits
    have same : ∀ path, inside.held path = s.held path := fun path =>
      funext fun mode => Nat.add_right_cancel (holds path mode)
    refine .turn (calls ▸ List.getElem?_set_self bound) ?_ (fun path eq => ?_)
      (fun path e found => counted.used path e (entries ▸ found))
    · have counts := counted.counts r.path
      rw [entryLocked, stored, Option.getD_some] at counts
      rw [same]
      refine counts.unpark fun mode => ?_
      have one := waits r.path mode
      simp only [true_and] at one
      exact one.symm
    · have free : inside.awaited path = s.awaited path := by
        funext mode
        have none := waits path mode
        rw [if_neg fun both => eq both.1] at none
        exact none
      rw [same, free, entryLocked, entries]
      exact counted.counts path
  · cases taken

theorem awaited_notify (path : Str) (call : Call) : (call.notify path).awaited = call.awaited := by
  cases call <;> rfl

theorem held_notify (path : Str) (call : Call) : (call.notify path).held = call.held := by
  cases call <;> rfl

theorem Counted.of_same (counted : s.Counted) (entries : s'.entries = s.entries)
    (holds : ∀ path mode, s'.held path mode = s.held path mode)
    (waits : ∀ path mode, s'.awaited path mode = s.awaited path mode) : s'.Counted := by
  refine ⟨fun path => ?_, fun path e found => counted.used path e (entries ▸ found)⟩
  have locked : s'.entryLocked path = s.entryLocked path := by rw [entryLocked, entries]; rfl
  rw [locked, funext (holds path), funext (waits path)]
  exact counted.counts path

theorem Counted.unlockOne (mid : State) (r : LockRequest) (entries : mid.entries = s.entries)
    (counted : s.Counted)
    (one : ∀ path mode, s.held path mode =
      mid.held path mode + if r.path = path ∧ mode = r.mode then 1 else 0)
    (waits : ∀ path, mid.awaited path = s.awaited path) : (mid.unlockOne r).Counted := by
  have own := counted.counts r.path
  have others : ∀ path, r.path ≠ path →
      (mid.entryLocked path).Counts (mid.held path) (mid.awaited path) 0 := by
    intro path eq
    have kept : mid.held path = s.held path := by
      funext mode
      have none := one path mode
      rw [if_neg fun both => eq both.1] at none
      exact none.symm
    rw [kept, waits, entryLocked, entries]
    exact counted.counts path
  have used : ∀ (path : Str) (e : Entry), mid.entries[path]? = some e → 0 < e.refs :=
    fun path e found => counted.used path e (entries ▸ found)
  have holds : ∀ path, (mid.unlockOne r).held path = mid.held path := by
    intro path
    unfold State.unlockOne
    split
    · rfl
    · funext mode
      simp only [held, holders, List.map_map]
      congr 3
      exact List.map_congr_left fun call _ => held_notify r.path call
  have awaits : ∀ path, (mid.unlockOne r).awaited path = mid.awaited path := by
    intro path
    unfold State.unlockOne
    split
    · rfl
    · funext mode
      simp only [awaited, List.flatMap_map]
      congr 2
      exact funext (awaited_notify r.path)
  cases stored : mid.entries[r.path]? with
  | none =>
      -- an entry that is not there has no holders
      rw [entryLocked, ← entries, stored, Option.getD_none] at own
      have present := one r.path r.mode
      rw [if_pos ⟨rfl, rfl⟩] at present
      have reading := own.readers
      have writing := own.writer
      exfalso
      cases mode : r.mode with
      | read =>
          rw [mode] at present
          dsimp only at reading
          omega
      | write =>
          rw [mode] at present
          rw [Bool.toNat_false] at writing
          omega
  | some e =>
      rw [entryLocked, ← entries, stored, Option.getD_some] at own
      have own' : ∀ mode, s.held r.path mode =
          mid.held r.path mode + if mode = r.mode then 1 else 0 := by
        intro mode
        have at' := one r.path mode
        simp only [true_and] at at'
        exact at'
      have left := own.leave own'
      rw [← waits] at left
      have result : (mid.unlockOne r).entries =
          if e.refs - 1 = 0 then mid.entries.erase r.path
          else mid.entries.insert r.path { e.leave r.mode with refs := e.refs - 1 } := by
        unfold State.unlockOne
        rw [stored]
      by_cases unused : e.refs - 1 = 0
      · rw [if_pos unused] at result
        refine ⟨fun path => ?_, fun path e' found => ?_⟩
        · rw [holds, awaits, entryLocked, result, Lib.Maps.getElem?_erase]
          by_cases eq : r.path = path
          · subst eq
            rw [if_pos rfl]
            exact left.empty unused
          · rw [if_neg eq]
            exact others path eq
        · rw [result, Lib.Maps.getElem?_erase] at found
          split at found
          · cases found
          · exact used path e' found
      · rw [if_neg unused] at result
        refine .update (s := mid) ?_ ?_ result (fun path eq => ?_) used
        · rw [holds, awaits]
          exact left
        · have before := used r.path e stored
          dsimp only
          omega
        · rw [holds, awaits]
          exact others path eq

theorem Counted.unlock (counted : s.Counted) (taken : s.unlock i = some s') : s'.Counted := by
  unfold State.unlock at taken
  split at taken
  · rename_i left found
    split at taken
    · rename_i last
      cases taken
      obtain rfl : left = [] := List.getLast?_eq_none_iff.mp last
      refine counted.of_same rfl (fun path mode => ?_) fun path mode => ?_
      · exact Nat.add_right_cancel (held_set (d := .ended) (t := { s with calls := s.calls.set i .ended })
          found rfl rfl path mode)
      · exact Nat.add_right_cancel (awaited_set (d := .ended) found rfl path mode)
    · rename_i r last
      cases taken
      obtain ⟨front, rfl⟩ := List.getLast?_eq_some_iff.mp last
      rw [List.dropLast_concat]
      refine .unlockOne (s := s) _ r rfl counted (fun path mode => ?_) fun path => ?_
      · have holds := held_set (t := { s with calls := s.calls.set i (.unlocking front) })
       
          found rfl rfl path mode
        simp only [Call.held, List.count_append, count_one] at holds
        omega
      · funext mode
        exact Nat.add_right_cancel (awaited_set (d := .unlocking front) found rfl path mode)
  · cases taken

theorem Counted.acquire (counted : s.Counted) (requests : List LockRequest) :
    (s.acquire requests).Counted := by
  refine counted.of_same rfl (fun path mode => ?_) fun path mode => ?_
  · simp [State.acquire, held, holders, Call.held]
  · simp [State.acquire, awaited, Call.awaited]

theorem Counted.finish (counted : s.Counted) (taken : s.finish i = some s') : s'.Counted := by
  unfold State.finish at taken
  split at taken
  · rename_i got found
    cases taken
    refine counted.of_same rfl (fun path mode => ?_) fun path mode => ?_
    · have holds := held_set (d := .ended) (t := { s with calls := s.calls.set i .ended })
        found rfl rfl path mode
      simp only [Call.held, List.count_nil] at holds
      simp only [held, holders, List.flatten_append, List.flatten_singleton, List.count_append]
      simp only [held, holders, List.flatten_append, List.count_append] at holds
      omega
    · exact Nat.add_right_cancel (awaited_set (d := .ended) found rfl path mode)
  · cases taken

theorem Counted.release (counted : s.Counted) (taken : s.release k = some s') : s'.Counted := by
  unfold State.release at taken
  split at taken
  · rename_i held found
    cases taken
    refine counted.of_same rfl (fun path mode => ?_) fun path mode => ?_
    · have moved := count_flatten_set (d := []) found ⟨path, mode⟩
      simp only [State.held, holders, List.map_append, List.map_cons, List.map_nil, Call.held,
        List.flatten_append, List.flatten_singleton, List.count_append]
      simp only [List.count_nil] at moved
      omega
    · simp [awaited, Call.awaited]
  · cases taken

theorem Counted.move (counted : s.Counted) (taken : s.move k = some s') : s'.Counted := by
  unfold State.move at taken
  split at taken
  · rename_i held found
    cases taken
    refine counted.of_same rfl (fun path mode => ?_) fun path mode => rfl
    have moved := count_flatten_set (d := []) found ⟨path, mode⟩
    simp only [State.held, holders, List.flatten_append, List.flatten_singleton, List.count_append]
    simp only [List.count_nil] at moved
    omega
  · cases taken

theorem Counted.assign {l : Nat} (counted : s.Counted) (taken : s.assign k l = some s') :
    s'.Counted := by
  unfold State.assign at taken
  split at taken
  · rename_i held free found
    cases taken
    refine counted.of_same rfl (fun path mode => ?_) fun path mode => rfl
    have left := count_flatten_set (d := []) found ⟨path, mode⟩
    have free' : (s.sets.set l [])[k]? = some [] := by
      rw [List.getElem?_set]
      split
      · rename_i same
        rw [if_pos (same ▸ (List.getElem?_eq_some_iff.mp free).1)]
      · exact free
    have arrived := count_flatten_set (d := held) free' ⟨path, mode⟩
    simp only [State.held, holders, List.flatten_append, List.count_append]
    simp only [List.count_nil] at left arrived
    omega
  · cases taken

theorem Counted.step {action : Step} (counted : s.Counted) (taken : s.step action = some s') :
    s'.Counted := by
  cases action with
  | acquire requests =>
      cases taken
      exact counted.acquire requests
  | lock => exact counted.lock taken
  | wake => exact counted.wake taken
  | finish => exact counted.finish taken
  | release => exact counted.release taken
  | unlock => exact counted.unlock taken
  | move => exact counted.move taken
  | assign => exact counted.assign taken

theorem Initial.counted (initial : Initial s) : s.Counted := by
  subst initial
  refine ⟨fun path => ?_, fun path e found => ?_⟩
  · have none : entryLocked {} path = {} := by simp [entryLocked]
    rw [none]
    exact ⟨rfl, rfl, nofun, rfl, rfl⟩
  · simp at found

end State

/-! ## The order of every holder -/

/-- What the call holds and what it is still to lock. -/
def Call.plan : Call → List LockRequest
  | .locking got todo => got ++ todo
  | .waiting got r todo _ => got ++ r :: todo
  | .unlocking left => left
  | .ended => []

structure State.Lined (s : State) : Prop where
  calls : ∀ call ∈ s.calls, Ordered call.plan
  sets : ∀ held ∈ s.sets, Ordered held

theorem Call.held_sublist (call : Call) : call.held.Sublist call.plan := by
  cases call with
  | locking got todo => exact List.sublist_append_left got todo
  | waiting got r todo => exact List.sublist_append_left got (r :: todo)
  | unlocking left => exact List.Sublist.refl left
  | ended => exact List.Sublist.refl []

namespace State
variable {s s' : State} {i k : Nat} {r : LockRequest} {got todo : List LockRequest}

theorem Lined.holders (lined : s.Lined) : ∀ held ∈ s.holders, Ordered held := by
  intro held member
  rcases List.mem_append.mp member with ofCall | ofSet
  · obtain ⟨call, inCalls, rfl⟩ := List.mem_map.mp ofCall
    exact (lined.calls call inCalls).sublist call.held_sublist
  · exact lined.sets held ofSet

theorem Lined.set_call (lined : s.Lined) (call : Call) (plan : Ordered call.plan)
    (calls : s'.calls = s.calls.set i call) (sets : s'.sets = s.sets) : s'.Lined := by
  refine ⟨fun other member => ?_, sets ▸ lined.sets⟩
  rw [calls] at member
  rcases List.mem_or_eq_of_mem_set member with old | rfl
  · exact lined.calls other old
  · exact plan

theorem Lined.turn {e : Entry} (lined : s.Lined) (plan : Ordered (got ++ r :: todo)) :
    (s.turn i got r todo e).Lined := by
  unfold State.turn
  split
  · exact lined.set_call (.waiting got r todo false) plan rfl rfl
  · refine lined.set_call (.locking (got ++ [r]) todo) ?_ rfl rfl
    rw [Call.plan, List.append_assoc]
    exact plan

theorem Lined.unlockOne (lined : s.Lined) (r : LockRequest) : (s.unlockOne r).Lined := by
  unfold State.unlockOne
  split
  · exact lined
  · refine ⟨fun call member => ?_, lined.sets⟩
    obtain ⟨before, old, rfl⟩ := List.mem_map.mp member
    have same : (before.notify r.path).plan = before.plan := by cases before <;> rfl
    rw [same]
    exact lined.calls before old

theorem Lined.step {action : Step} (lined : s.Lined) (taken : s.step action = some s') :
    s'.Lined := by
  have found : ∀ {i : Nat} {call : Call}, s.calls[i]? = some call → Ordered call.plan :=
    fun at' => lined.calls _ (List.mem_of_getElem? at')
  have foundSet : ∀ {k : Nat} {held : List LockRequest}, s.sets[k]? = some held → Ordered held :=
    fun at' => lined.sets _ (List.mem_of_getElem? at')
  -- a `LockSet` that is emptied or moved
  have setSet : ∀ {k : Nat} {new : List LockRequest} {sets : List (List LockRequest)},
      (∀ held ∈ sets, Ordered held) → Ordered new → ∀ held ∈ sets.set k new, Ordered held := by
    intro k new sets all ordered held member
    rcases List.mem_or_eq_of_mem_set member with old | rfl
    · exact all held old
    · exact ordered
  have push : ∀ {new : List LockRequest} {sets : List (List LockRequest)},
      (∀ held ∈ sets, Ordered held) → Ordered new → ∀ held ∈ sets ++ [new], Ordered held := by
    intro new sets all ordered held member
    rcases List.mem_append.mp member with old | last
    · exact all held old
    · exact List.mem_singleton.mp last ▸ ordered
  have pushCall : ∀ {new : Call}, Ordered new.plan → ∀ call ∈ s.calls ++ [new], Ordered call.plan := by
    intro new ordered call member
    rcases List.mem_append.mp member with old | last
    · exact lined.calls call old
    · exact List.mem_singleton.mp last ▸ ordered
  cases action with
  | acquire requests =>
      cases taken
      exact ⟨pushCall ordered_normalize, lined.sets⟩
  | lock i =>
      simp only [State.step, State.lock] at taken
      split at taken
      · rename_i at'
        cases taken
        exact lined.turn (found at')
      · cases taken
  | wake i =>
      simp only [State.step, State.wake] at taken
      split at taken
      · rename_i at'
        obtain ⟨e, _, rfl⟩ := Option.map_eq_some_iff.mp taken
        exact lined.turn (found at')
      · cases taken
  | finish i =>
      simp only [State.step, State.finish] at taken
      split at taken
      · rename_i got at'
        cases taken
        have ended : State.Lined { s with calls := s.calls.set i .ended } :=
          lined.set_call .ended List.Pairwise.nil rfl rfl
        have ordered : Ordered (got ++ []) := found at'
        rw [List.append_nil] at ordered
        exact ⟨ended.calls, push lined.sets ordered⟩
      · cases taken
  | release k =>
      simp only [State.step, State.release] at taken
      split at taken
      · rename_i at'
        cases taken
        exact ⟨pushCall (foundSet at'), setSet lined.sets List.Pairwise.nil⟩
      · cases taken
  | unlock i =>
      simp only [State.step, State.unlock] at taken
      split at taken
      · rename_i left at'
        split at taken
        · cases taken
          exact lined.set_call .ended List.Pairwise.nil rfl rfl
        · rename_i r last
          cases taken
          have ordered : Ordered left := found at'
          have shorter : Ordered left.dropLast := ordered.sublist (List.dropLast_sublist left)
          have mid : State.Lined { s with calls := s.calls.set i (.unlocking left.dropLast) } :=
            lined.set_call (.unlocking left.dropLast) shorter rfl rfl
          exact mid.unlockOne r
      · cases taken
  | move k =>
      simp only [State.step, State.move] at taken
      split at taken
      · rename_i at'
        cases taken
        exact ⟨lined.calls, push (setSet lined.sets List.Pairwise.nil) (foundSet at')⟩
      · cases taken
  | assign k l =>
      simp only [State.step, State.assign] at taken
      split at taken
      · rename_i at'
        cases taken
        exact ⟨lined.calls, setSet (setSet lined.sets List.Pairwise.nil) (foundSet at')⟩
      · cases taken

theorem Initial.lined (initial : Initial s) : s.Lined := by
  subst initial
  exact ⟨nofun, nofun⟩

end State

/-! ## What the table promises -/

/-- The set was built by `ForPath` or `ForPaths` with this path as a leaf. -/
def HasLeaf (held : List LockRequest) (path : Str) : Prop :=
  ∃ mode, held = normalize (forPath path mode) ∨
    ∃ other otherMode, held = normalize (forPaths path mode other otherMode) ∨
      held = normalize (forPaths other otherMode path mode)

def State.waiters (s : State) : List LockRequest := s.calls.flatMap Call.awaited

structure State.Sound (s : State) : Prop where
  exclusive : s.holders.Pairwise fun held other => compatible held other = true
  subtree : ∀ (i j : Nat) held other, i ≠ j → s.sets[i]? = some held → s.sets[j]? = some other →
    ∀ p q, isValidPath p = true → held = normalize (forPath p .write) →
      HasLeaf other q → isAncestorOrSelf p q = false
  exact : ∀ (path : Str) (e : Entry), s.entries[path]? = some e →
    e.readers = s.holders.countP (⟨path, .read⟩ ∈ ·) ∧
    e.writer.toNat = s.holders.countP (⟨path, .write⟩ ∈ ·) ∧
    e.waitingWriters = s.waiters.count ⟨path, .write⟩ ∧
    e.refs = s.holders.countP (·.any (·.path = path)) + s.waiters.countP (·.path = path)
  reclaimed : ∀ path : Str, s.entries[path]? = none ↔
    (∀ held ∈ s.holders, ¬ Covers held path) ∧ ∀ r ∈ s.waiters, r.path ≠ path
  empty : (∀ held ∈ s.holders, held = []) → s.waiters = [] → s.entries = ∅

section
variable {holders : List (List LockRequest)} {held other : List LockRequest} {p q path : Str}

theorem Ordered.nodup (ordered : Ordered held) : held.Nodup := by
  refine ordered.imp fun {a b} less same => ?_
  rw [before_irrefl (congrArg LockRequest.path same)] at less
  cases less

theorem Ordered.once (ordered : Ordered held) (path : Str) :
    held.count ⟨path, .read⟩ + held.count ⟨path, .write⟩ =
      if held.any (·.path = path) then 1 else 0 := by
  induction held with
  | nil => rfl
  | cons r rest ih =>
      obtain ⟨first, ordered⟩ := List.pairwise_cons.mp ordered
      have rest' := ih ordered
      by_cases same : r.path = path
      · have none : rest.any (·.path = path) = false := by
          refine List.any_eq_false.mpr fun r' member eq => ?_
          have less := first r' member
          rw [before_irrefl (same.trans (of_decide_eq_true eq).symm)] at less
          cases less
        rw [none] at rest'
        obtain ⟨rpath, mode⟩ := r
        obtain rfl : rpath = path := same
        cases mode with
        | read => simp_all
        | write => simp_all
      · have here : ∀ mode, (r :: rest).count ⟨path, mode⟩ = rest.count ⟨path, mode⟩ := fun mode =>
          List.count_cons_of_ne fun eq => same (congrArg LockRequest.path eq)
        rw [here, here, rest', List.any_cons, decide_eq_false same, Bool.false_or]

theorem count_flatten (ordered : ∀ held ∈ holders, Ordered held) (r : LockRequest) :
    holders.flatten.count r = holders.countP (r ∈ ·) := by
  induction holders with
  | nil => rfl
  | cons held rest ih =>
      rw [List.flatten_cons, List.count_append, List.countP_cons,
        ih fun h member => ordered h (List.mem_cons_of_mem _ member),
        (ordered held List.mem_cons_self).nodup.count, Nat.add_comm]
      simp

theorem count_flatten_path (ordered : ∀ held ∈ holders, Ordered held) (path : Str) :
    holders.flatten.count ⟨path, .read⟩ + holders.flatten.count ⟨path, .write⟩ =
      holders.countP (·.any (·.path = path)) := by
  induction holders with
  | nil => rfl
  | cons held rest ih =>
      have one := (ordered held List.mem_cons_self).once path
      have rest := ih fun h member => ordered h (List.mem_cons_of_mem _ member)
      rw [List.flatten_cons, List.count_append, List.count_append, List.countP_cons]
      omega

theorem count_path (requests : List LockRequest) (path : Str) :
    requests.count ⟨path, .read⟩ + requests.count ⟨path, .write⟩ =
      requests.countP (·.path = path) := by
  induction requests with
  | nil => rfl
  | cons r rest ih =>
      obtain ⟨rpath, mode⟩ := r
      rw [List.count_cons, List.count_cons, List.countP_cons]
      cases mode with
      | read =>
          simp only [beq_iff_eq, LockRequest.mk.injEq, and_true, reduceCtorEq, and_false, if_false,
            decide_eq_true_eq]
          omega
      | write =>
          simp only [beq_iff_eq, LockRequest.mk.injEq, and_true, reduceCtorEq, and_false, if_false,
            decide_eq_true_eq]
          omega

theorem exclusive_of_counts
    (single : ∀ path, holders.flatten.count ⟨path, .write⟩ ≤ 1 ∧
      (0 < holders.flatten.count ⟨path, .write⟩ → holders.flatten.count ⟨path, .read⟩ = 0)) :
    holders.Pairwise fun held other => compatible held other = true := by
  induction holders with
  | nil => exact List.Pairwise.nil
  | cons held rest ih =>
      simp only [List.flatten_cons, List.count_append] at single
      refine List.pairwise_cons.mpr ⟨fun other member => ?_, ih fun path => ?_⟩
      · have inRest : ∀ r ∈ other, 0 < rest.flatten.count r := fun r inOther =>
          List.count_pos_iff.mpr (List.mem_flatten.mpr ⟨other, member, inOther⟩)
        have inHeld : ∀ r ∈ held, 0 < held.count r := fun r => List.count_pos_iff.mpr
        refine compatible_iff.mpr fun path => ⟨fun writes => ?_, fun writes => ?_⟩
        · rintro ⟨mode, covers⟩
          have here := inHeld _ writes
          have there := inRest _ covers
          obtain ⟨one, none⟩ := single path
          cases mode with
          | read => omega
          | write => omega
        · rintro ⟨mode, covers⟩
          have here := inHeld _ covers
          have there := inRest _ writes
          obtain ⟨one, none⟩ := single path
          cases mode with
          | read => omega
          | write => omega
      · obtain ⟨one, none⟩ := single path
        exact ⟨by omega, fun positive => by omega⟩

theorem covers_of_above {leaf : LockMode} (nonempty : p ≠ []) (above : isAncestorOrSelf p q = true) :
    Covers (forPath q leaf) p := by
  by_cases root : q = ['/']
  · subst root
    rw [eq_root_of_isAncestorOrSelf nonempty above]
    exact ⟨leaf, List.mem_append_right _ (List.mem_singleton.mpr rfl)⟩
  · exact (covers_forPath nonempty root).mpr above

theorem HasLeaf.reaches (leaf : HasLeaf held q) : Reaches held q := by
  intro a nonempty above
  obtain ⟨mode, rfl | ⟨other, otherMode, rfl | rfl⟩⟩ := leaf
  · exact covers_normalize.mpr (covers_of_above nonempty above)
  · exact covers_normalize.mpr (covers_append.mpr (.inl (covers_of_above nonempty above)))
  · exact covers_normalize.mpr (covers_append.mpr (.inr (covers_of_above nonempty above)))

end

namespace State
variable {s : State}

theorem sets_compatible (exclusive : s.holders.Pairwise fun held other => compatible held other = true)
    {i j : Nat} {held other : List LockRequest} (different : i ≠ j) (first : s.sets[i]? = some held)
    (second : s.sets[j]? = some other) : compatible held other = true := by
  have sets := (List.pairwise_append.mp exclusive).2.1
  obtain ⟨boundI, rfl⟩ := List.getElem?_eq_some_iff.mp first
  obtain ⟨boundJ, rfl⟩ := List.getElem?_eq_some_iff.mp second
  rcases Nat.lt_or_gt_of_ne different with less | more
  · exact List.pairwise_iff_getElem.mp sets i j boundI boundJ less
  · rw [compatible_comm]
    exact List.pairwise_iff_getElem.mp sets j i boundJ boundI more

theorem Counted.sound (counted : s.Counted) (lined : s.Lined) : s.Sound := by
  have exclusive : s.holders.Pairwise fun held other => compatible held other = true := by
    refine exclusive_of_counts fun path => ?_
    obtain ⟨_, writer, apart, _, _⟩ := counted.counts path
    have one : s.held path .write ≤ 1 := writer ▸ Bool.toNat_le _
    refine ⟨one, fun positive => apart ?_⟩
    have writing : 0 < s.held path .write := positive
    rw [writer] at writing
    cases flag : (s.entryLocked path).writer with
    | true => rfl
    | false =>
        rw [flag] at writing
        cases writing
  have unlocked : ∀ path : Str, s.entries[path]? = none ↔
      (∀ held ∈ s.holders, ¬ Covers held path) ∧ ∀ r ∈ s.waiters, r.path ≠ path := by
    intro path
    have counts := counted.counts path
    constructor
    · intro none
      rw [entryLocked, none, Option.getD_none] at counts
      obtain ⟨readers, writer, _, waiting, refs⟩ := counts
      dsimp only at readers writer waiting refs
      rw [Bool.toNat_false] at writer
      have nobody : ∀ mode, s.held path mode = 0 ∧ s.awaited path mode = 0 := by
        intro mode
        cases mode with
        | read => omega
        | write => omega
      refine ⟨fun held member ⟨mode, covers⟩ => ?_, fun r member same => ?_⟩
      · have absent := List.count_eq_zero.mp (nobody mode).1
        exact absent (List.mem_flatten.mpr ⟨held, member, covers⟩)
      · obtain ⟨rpath, mode⟩ := r
        obtain rfl : rpath = path := same
        exact List.count_eq_zero.mp (nobody mode).2 member
    · rintro ⟨noHolder, noWaiter⟩
      have nobody : ∀ mode, s.held path mode = 0 ∧ s.awaited path mode = 0 := by
        refine fun mode => ⟨List.count_eq_zero.mpr fun member => ?_,
          List.count_eq_zero.mpr fun member => noWaiter _ member rfl⟩
        obtain ⟨held, inHolders, covers⟩ := List.mem_flatten.mp member
        exact noHolder held inHolders ⟨mode, covers⟩
      cases found : s.entries[path]? with
      | none => rfl
      | some e =>
          have positive := counted.used path e found
          rw [entryLocked, found, Option.getD_some] at counts
          have refs := counts.refs
          have read := nobody .read
          have write := nobody .write
          omega
  refine ⟨exclusive, fun i j held other different first second p q valid built leaf => ?_,
    fun path e found => ?_, unlocked, fun noHolder noWaiter => ?_⟩
  · refine Bool.eq_false_iff.mpr fun below => ?_
    have free := sets_compatible exclusive different first second
    have writes : ⟨p, .write⟩ ∈ held := by
      rw [built]
      exact mem_normalize_write.mpr (mem_forPath_write.mpr ⟨rfl, rfl⟩)
    exact (compatible_iff.mp free p).1 writes (leaf.reaches p (isValidPath_ne_nil valid) below)
  · have counts := counted.counts path
    rw [entryLocked, found, Option.getD_some] at counts
    obtain ⟨readers, writer, _, waiting, refs⟩ := counts
    have readers' := count_flatten lined.holders ⟨path, .read⟩
    have writers' := count_flatten lined.holders ⟨path, .write⟩
    refine ⟨?_, ?_, waiting, ?_⟩
    · rw [← readers']
      exact readers
    · rw [← writers']
      exact writer.symm
    · have all := count_flatten_path lined.holders path
      have waits := count_path s.waiters path
      rw [refs, ← all, ← waits]
      simp only [held, awaited, waiters]
      omega
  · refine ExtTreeMap.ext_getElem? fun path => ?_
    rw [(unlocked path).mpr]
    · simp
    · refine ⟨fun held member ⟨mode, covers⟩ => ?_, fun r member => ?_⟩
      · rw [noHolder held member] at covers
        cases covers
      · rw [noWaiter] at member
        cases member

theorem invariant {allowed : State → Step → Prop}
    (reachable : Reachable State.step Initial allowed s) : s.Counted ∧ s.Lined := by
  have counted : s.Counted :=
    reachable.invariant (fun _ initial => initial.counted) fun _ _ _ inv _ taken => inv.step taken
  have lined : s.Lined :=
    reachable.invariant (fun _ initial => initial.lined) fun _ _ _ inv _ taken => inv.step taken
  exact ⟨counted, lined⟩

theorem sound_of_reachable (reachable : Reachable State.step Initial (fun _ _ => True) s) :
    s.Sound := by
  obtain ⟨counted, lined⟩ := invariant reachable
  exact counted.sound lined

/-- Two readers below `/d`, and a writer of `/d` that has to wait for both. -/
def readersThenWriter : List Step :=
  [.acquire (forPath "/d/f".toList .read), .lock 0, .lock 0, .lock 0, .finish 0,
    .acquire (forPath "/d/g".toList .read), .lock 1, .lock 1, .lock 1, .finish 1,
    .acquire (forPath "/d".toList .write), .lock 2, .lock 2,
    .release 0, .unlock 3, .unlock 3, .unlock 3, .wake 2,
    .release 1, .unlock 4, .unlock 4, .unlock 4, .wake 2, .finish 2]

theorem sound_readersThenWriter :
    ∃ s, run State.step {} readersThenWriter = some s ∧
      s.sets = [[], [], [⟨"/".toList, .read⟩, ⟨"/d".toList, .write⟩]] ∧ s.Sound := by
  obtain ⟨s, ran⟩ := Option.isSome_iff_exists.mp
    (by decide +kernel : (run State.step {} readersThenWriter).isSome = true)
  have last : (run State.step {} readersThenWriter).map (·.sets) =
      some [[], [], [⟨"/".toList, .read⟩, ⟨"/d".toList, .write⟩]] := by decide +kernel
  rw [ran, Option.map_some, Option.some.injEq] at last
  exact ⟨s, ran, last, sound_of_reachable (reachable_run_true rfl ran)⟩

end State

end Gfs.Master.LockTable
