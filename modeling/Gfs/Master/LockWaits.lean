import Gfs.Master.LockSteps
import Mathlib.Logic.Relation

/-!
# Nobody waits for ever at the lock table

A thread that waits for a lock waits for one that holds it, or, to read, for one that waits to write.
The first is further in the order of the locks than the second, and a writer waits for holders only,
so the last thread of the order can go on.
-/

namespace Gfs.Master.LockTable
open Lib.Transition Std

/-- In the order in which threads wait for each other: by the order of the locks, and for one path
readers wait for writers. -/
def Behind (r r' : LockRequest) : Prop :=
  before r r' = true ∨ r.path = r'.path ∧ r.mode = .read ∧ r'.mode = .write

theorem Behind.trans {r r' r'' : LockRequest} (first : Behind r r') (second : Behind r' r'') :
    Behind r r'' := by
  rcases first with less | ⟨same, read, write⟩
  · rcases second with less' | ⟨same', _, _⟩
    · exact .inl (before_trans less less')
    · exact .inl (before_congr rfl same' ▸ less)
  · rcases second with less' | ⟨_, read', _⟩
    · exact .inl (before_congr same rfl ▸ less')
    · cases write.symm.trans read'

theorem Behind.irrefl (r : LockRequest) : ¬ Behind r r := by
  rintro (less | ⟨_, read, write⟩)
  · rw [before_irrefl rfl] at less
    cases less
  · cases read.symm.trans write

theorem exists_last {requests : List LockRequest} (some : requests ≠ []) :
    ∃ last ∈ requests, ∀ other ∈ requests, ¬ Behind last other := by
  induction requests with
  | nil => exact absurd rfl some
  | cons r rest ih =>
      by_cases none : rest = []
      · subst none
        refine ⟨r, List.mem_cons_self, fun other member => ?_⟩
        obtain rfl := List.mem_singleton.mp member
        exact Behind.irrefl other
      · obtain ⟨last, inRest, isLast⟩ := ih none
        by_cases further : Behind last r
        · refine ⟨r, List.mem_cons_self, fun other member behind => ?_⟩
          rcases List.mem_cons.mp member with rfl | inRest'
          · exact Behind.irrefl other behind
          · exact isLast other inRest' (further.trans behind)
        · refine ⟨last, List.mem_cons_of_mem _ inRest, fun other member => ?_⟩
          rcases List.mem_cons.mp member with rfl | inRest'
          · exact further
          · exact isLast other inRest'

/-! ## No wakeup is lost -/

/-- Every thread that waits and has not been notified has to wait. -/
def State.Alert (s : State) : Prop :=
  ∀ (i : Nat) (got : List LockRequest) (r : LockRequest) (todo : List LockRequest),
    s.calls[i]? = some (.waiting got r todo false) → (s.entryLocked r.path).blocked r.mode = true

section
variable {e : Entry} {mode other : LockMode}

theorem Entry.blocked_park (blocked : e.blocked other = true) :
    (e.park mode).blocked other = true := by
  cases mode with
  | read => exact blocked
  | write =>
      cases other with
      | write => exact blocked
      | read =>
          rcases Bool.or_eq_true_iff.mp blocked with writing | waits
          · exact Bool.or_eq_true_iff.mpr (.inl writing)
          · have some : 0 < e.waitingWriters := of_decide_eq_true waits
            refine Bool.or_eq_true_iff.mpr (.inr (decide_eq_true ?_))
            dsimp only [Entry.park]
            omega

theorem Entry.blocked_take (blocked : mode = .read → e.blocked other = true) (counted : 0 ≤ e.readers) :
    (e.take mode).blocked other = true := by
  cases mode with
  | write =>
      cases other with
      | write => exact Bool.or_true _
      | read => rfl
  | read =>
      have before := blocked rfl
      cases other with
      | read => exact before
      | write =>
          refine Bool.or_eq_true_iff.mpr (.inl (decide_eq_true ?_))
          dsimp only [Entry.take]
          omega

theorem Entry.park_unpark : (e.unpark mode).park mode = e := by
  cases mode with
  | read => rfl
  | write => simp [Entry.park, Entry.unpark]

end

namespace State
variable {s s' : State} {i k : Nat} {r : LockRequest} {got todo : List LockRequest}

theorem Alert.turn {e : Entry} (alert : s.Alert) (counted : 0 ≤ e.readers)
    (parked : ∀ mode, (s.entryLocked r.path).blocked mode = true →
      e.blocked r.mode = true → (e.park r.mode).blocked mode = true)
    (taken : ∀ mode, (s.entryLocked r.path).blocked mode = true → r.mode = .read →
      e.blocked mode = true) : (s.turn i got r todo e).Alert := by
  have others : ∀ {e' : Entry} {j : Nat} {call : Call} {got' todo' : List LockRequest}
      {r' : LockRequest}, (r'.path = r.path → (s.entryLocked r.path).blocked r'.mode = true →
        e'.blocked r'.mode = true) → i ≠ j →
      (s.calls.set i call)[j]? = some (.waiting got' r' todo' false) →
      (entryLocked ⟨s.entries.insert r.path e', s.calls.set i call, s.sets⟩ r'.path).blocked
        r'.mode = true := by
    intro e' j call got' todo' r' keeps different found
    rw [List.getElem?_set_ne different] at found
    have before := alert j got' r' todo' found
    rw [entryLocked, Lib.Maps.getElem?_insert]
    by_cases same : r.path = r'.path
    · rw [if_pos same]
      exact keeps same.symm (same ▸ before)
    · rw [if_neg same]
      exact before
  intro j got' r' todo' found
  by_cases blocked : e.blocked r.mode = true
  · have result : s.turn i got r todo e =
        ⟨s.entries.insert r.path (e.park r.mode),
          s.calls.set i (.waiting got r todo false), s.sets⟩ := if_pos blocked
    rw [result] at found ⊢
    by_cases same : i = j
    · subst same
      rw [List.getElem?_set] at found
      simp only [if_true] at found
      split at found
      · cases found
        rw [entryLocked, Lib.Maps.getElem?_insert, if_pos rfl]
        exact Entry.blocked_park blocked
      · cases found
    · exact others (fun _ before => parked _ before blocked) same found
  · have result : s.turn i got r todo e =
        ⟨s.entries.insert r.path (e.take r.mode),
          s.calls.set i (.locking (got ++ [r]) todo), s.sets⟩ := if_neg blocked
    rw [result] at found ⊢
    by_cases same : i = j
    · subst same
      rw [List.getElem?_set] at found
      simp only [if_true] at found
      split at found
      · cases found
      · cases found
    · refine others (fun _ before => Entry.blocked_take (fun read => ?_) counted) same found
      exact taken _ before read

theorem Alert.set_call {call : Call} (alert : s.Alert) (calls : s'.calls = s.calls.set i call)
    (entries : s'.entries = s.entries) (moving : call.awaited = []) : s'.Alert := by
  intro j got' r' todo' found
  rw [calls] at found
  have locked : s'.entryLocked r'.path = s.entryLocked r'.path := by rw [entryLocked, entries]; rfl
  rw [locked]
  by_cases same : i = j
  · subst same
    rw [List.getElem?_set] at found
    simp only [if_true] at found
    split at found
    · cases found
      cases moving
    · cases found
  · rw [List.getElem?_set_ne same] at found
    exact alert j got' r' todo' found

theorem Alert.push_call {call : Call} (alert : s.Alert) (calls : s'.calls = s.calls ++ [call])
    (entries : s'.entries = s.entries) (moving : call.awaited = []) : s'.Alert := by
  intro j got' r' todo' found
  have locked : s'.entryLocked r'.path = s.entryLocked r'.path := by rw [entryLocked, entries]; rfl
  rw [locked]
  rw [calls, List.getElem?_append] at found
  split at found
  · exact alert j got' r' todo' found
  · obtain rfl := List.mem_singleton.mp (List.mem_of_getElem? found)
    cases moving

theorem Alert.unlockOne (alert : s.Alert) (r : LockRequest) : (s.unlockOne r).Alert := by
  unfold State.unlockOne
  split
  · exact alert
  · intro j got' r' todo' found
    rw [List.getElem?_map] at found
    obtain ⟨call, before, notified⟩ := Option.map_eq_some_iff.mp found
    cases call with
    | waiting got₀ r₀ todo₀ notified₀ =>
        simp only [Call.notify, Call.waiting.injEq, Bool.or_eq_false_iff, decide_eq_false_iff_not]
          at notified
        obtain ⟨rfl, rfl, rfl, rfl, different⟩ := notified
        have blocked := alert j got₀ r₀ todo₀ before
        rw [entryLocked] at blocked ⊢
        dsimp only
        split
        · rw [Lib.Maps.getElem?_erase, if_neg fun same => different same.symm]
          exact blocked
        · rw [Lib.Maps.getElem?_insert, if_neg fun same => different same.symm]
          exact blocked
    | locking => cases notified
    | unlocking => cases notified
    | ended => cases notified

theorem Alert.step {action : Step} (alert : s.Alert) (counted : s.Counted)
    (taken : s.step action = some s') : s'.Alert := by
  cases action with
  | acquire requests =>
      cases taken
      exact alert.push_call rfl rfl rfl
  | lock i =>
      simp only [State.step, State.lock] at taken
      split at taken
      · rename_i got r todo found
        cases taken
        have readers := (counted.counts r.path).readers
        refine alert.turn ?_ (fun mode before _ => Entry.blocked_park ?_) fun mode before _ => ?_
        · dsimp only
          omega
        · cases mode <;> exact before
        · cases mode <;> exact before
      · cases taken
  | wake i =>
      simp only [State.step, State.wake] at taken
      split at taken
      · rename_i got r todo notified found
        obtain ⟨e, stored, rfl⟩ := Option.map_eq_some_iff.mp taken
        have locked : s.entryLocked r.path = e := by rw [entryLocked, stored]; rfl
        have readers := (counted.counts r.path).readers
        rw [locked] at readers
        refine alert.turn ?_ (fun mode before _ => ?_) fun mode before read => ?_
        · cases r.mode with
          | read => exact readers.ge.trans' (Int.natCast_nonneg _)
          | write => exact readers.ge.trans' (Int.natCast_nonneg _)
        · rw [Entry.park_unpark]
          exact locked ▸ before
        · rw [read]
          exact locked ▸ before
      · cases taken
  | finish i =>
      simp only [State.step, State.finish] at taken
      split at taken
      · cases taken
        exact alert.set_call rfl rfl rfl
      · cases taken
  | release k =>
      simp only [State.step, State.release] at taken
      split at taken
      · cases taken
        exact alert.push_call rfl rfl rfl
      · cases taken
  | unlock i =>
      simp only [State.step, State.unlock] at taken
      split at taken
      · rename_i left found
        split at taken
        · cases taken
          exact alert.set_call rfl rfl rfl
        · rename_i r last
          cases taken
          have mid : State.Alert { s with calls := s.calls.set i (.unlocking left.dropLast) } :=
            alert.set_call rfl rfl rfl
          exact mid.unlockOne r
      · cases taken
  | move k =>
      simp only [State.step, State.move] at taken
      split at taken
      · cases taken
        exact alert
      · cases taken
  | assign k l =>
      simp only [State.step, State.assign] at taken
      split at taken
      · cases taken
        exact alert
      · cases taken

end State

/-! ## Who waits for whom -/

/-- The thread is not inside `cv.wait`. -/
def Call.between : Call → Bool
  | .locking _ _ | .unlocking _ => true
  | _ => false

/-- The thread waits inside `LockOne` for this request. -/
def State.WaitsOn (s : State) (i : Nat) (r : LockRequest) : Prop :=
  ∃ got todo notified, s.calls[i]? = some (.waiting got r todo notified)

/-- `i` waits for a lock that `j` holds, or to read where `j` waits to write. -/
def State.WaitsFor (s : State) (i j : Nat) : Prop :=
  ∃ r, s.WaitsOn i r ∧
    ((∃ call, s.calls[j]? = some call ∧ ∃ r' ∈ call.held, r'.path = r.path) ∨
      r.mode = .read ∧ s.WaitsOn j ⟨r.path, .write⟩)

/-- A thread that waits has been notified and has nothing to wait for. -/
def State.CanWake (s : State) : Prop :=
  ∃ (i : Nat) (got : List LockRequest) (r : LockRequest) (todo : List LockRequest),
    s.calls[i]? = some (.waiting got r todo true) ∧ (s.entryLocked r.path).blocked r.mode = false

/-- If a thread waits then another does not, or a `LockSet` is held that can be released, or a thread
that waits has been notified and has nothing to wait for. -/
structure State.Live (s : State) : Prop where
  moves : ∀ i r, s.WaitsOn i r →
    (∃ call ∈ s.calls, call.between = true) ∨ (∃ held ∈ s.sets, held ≠ []) ∨ s.CanWake
  acyclic : ∀ i, ¬ Relation.TransGen s.WaitsFor i i
  alert : s.Alert

namespace State
variable {s : State} {i j k : Nat} {r r' : LockRequest}

theorem WaitsOn.unique (first : s.WaitsOn i r) (second : s.WaitsOn i r') : r = r' := by
  obtain ⟨got, todo, notified, found⟩ := first
  obtain ⟨got', todo', notified', found'⟩ := second
  cases found.symm.trans found'
  rfl

theorem mem_waiters : r ∈ s.waiters ↔ ∃ i, s.WaitsOn i r := by
  constructor
  · intro member
    obtain ⟨call, inCalls, awaited⟩ := List.mem_flatMap.mp member
    obtain ⟨i, found⟩ := List.getElem?_of_mem inCalls
    cases call with
    | waiting got r₀ todo notified =>
        obtain rfl := List.mem_singleton.mp awaited
        exact ⟨i, got, todo, notified, found⟩
    | locking => cases awaited
    | unlocking => cases awaited
    | ended => cases awaited
  · rintro ⟨i, got, todo, notified, found⟩
    exact List.mem_flatMap.mpr ⟨_, List.mem_of_getElem? found, List.mem_singleton.mpr rfl⟩

theorem Lined.behind (lined : s.Lined) {call : Call} (found : s.calls[j]? = some call)
    (member : r' ∈ call.held) (waits : s.WaitsOn j r) : before r' r = true := by
  obtain ⟨got, todo, notified, found'⟩ := waits
  cases found.symm.trans found'
  have plan : Ordered (got ++ r :: todo) := lined.calls _ (List.mem_of_getElem? found)
  exact (List.pairwise_append.mp plan).2.2 r' member r List.mem_cons_self

theorem WaitsFor.behind (lined : s.Lined) (edge : s.WaitsFor i j) (waits : s.WaitsOn i r)
    (waits' : s.WaitsOn j r') : Behind r r' := by
  obtain ⟨r₀, waits₀, ⟨call, found, held, member, same⟩ | ⟨read, writer⟩⟩ := edge
  · obtain rfl := waits.unique waits₀
    refine .inl ?_
    rw [← before_congr same rfl]
    exact lined.behind found member waits'
  · obtain rfl := waits.unique waits₀
    obtain rfl := waits'.unique writer
    exact .inr ⟨rfl, read, rfl⟩

theorem behind_of_transGen (lined : s.Lined) (path : Relation.TransGen s.WaitsFor i j)
    (waits : s.WaitsOn i r) (waits' : s.WaitsOn j r') : Behind r r' := by
  induction path generalizing r' with
  | single edge => exact edge.behind lined waits waits'
  | tail _ edge ih =>
      obtain ⟨r₀, waits₀, blocks⟩ := edge
      have last : s.WaitsFor _ _ := ⟨r₀, waits₀, blocks⟩
      exact (ih waits₀).trans (last.behind lined waits₀ waits')

theorem acyclic (lined : s.Lined) (i : Nat) : ¬ Relation.TransGen s.WaitsFor i i := by
  intro cycle
  have first : ∃ r, s.WaitsOn i r := by
    cases cycle using Relation.TransGen.head_induction_on with
    | single edge => exact ⟨edge.choose, edge.choose_spec.1⟩
    | head edge _ => exact ⟨edge.choose, edge.choose_spec.1⟩
  obtain ⟨r, waits⟩ := first
  exact Behind.irrefl r (behind_of_transGen lined cycle waits waits)

/-- The last waiter in the order of the locks can go on, unless somebody does not wait. -/
theorem Counted.moves (counted : s.Counted) (lined : s.Lined) (alert : s.Alert)
    (waits : s.WaitsOn i r) :
    (∃ call ∈ s.calls, call.between = true) ∨ (∃ held ∈ s.sets, held ≠ []) ∨ s.CanWake := by
  have some : s.waiters ≠ [] := List.ne_nil_of_mem (mem_waiters.mpr ⟨i, waits⟩)
  obtain ⟨last, member, isLast⟩ := exists_last some
  obtain ⟨j, got, todo, notified, found⟩ := mem_waiters.mp member
  have holder : ∀ mode, 0 < s.held last.path mode →
      (∃ call ∈ s.calls, call.between = true) ∨ ∃ held ∈ s.sets, held ≠ [] := by
    intro mode positive
    obtain ⟨held, inHolders, covers⟩ := List.mem_flatten.mp (List.count_pos_iff.mp positive)
    rcases List.mem_append.mp inHolders with ofCall | ofSet
    · obtain ⟨call, inCalls, rfl⟩ := List.mem_map.mp ofCall
      obtain ⟨k, at'⟩ := List.getElem?_of_mem inCalls
      cases call with
      | locking got todo => exact .inl ⟨_, inCalls, rfl⟩
      | unlocking left => exact .inl ⟨_, inCalls, rfl⟩
      | ended => cases covers
      | waiting got' r' todo' notified' =>
          -- a holder that waits does so behind the last waiter
          have waits' : s.WaitsOn k r' := ⟨got', todo', notified', at'⟩
          have behind := lined.behind at' covers waits'
          have same : before ⟨last.path, mode⟩ r' = before last r' := before_congr rfl rfl
          exact absurd (.inl (same ▸ behind)) (isLast r' (mem_waiters.mpr ⟨k, waits'⟩))
    · exact .inr ⟨held, ofSet, List.ne_nil_of_mem covers⟩
  cases blocked : (s.entryLocked last.path).blocked last.mode with
  | false =>
      cases notified with
      | false =>
          rw [alert j got last todo found] at blocked
          cases blocked
      | true => exact .inr (.inr ⟨j, got, last, todo, found, blocked⟩)
  | true =>
      rcases (counted.counts last.path).blocker blocked with ⟨held, _⟩ | held | ⟨read, writer⟩
      · exact (holder .read held).imp_right .inl
      · exact (holder .write held).imp_right .inl
      · have waiting : (⟨last.path, .write⟩ : LockRequest) ∈ s.waiters := List.count_pos_iff.mp writer
        exact absurd (.inr ⟨rfl, read, rfl⟩) (isLast _ waiting)

theorem Initial.alert (initial : Initial s) : s.Alert := by
  subst initial
  exact nofun

theorem alert_of_reachable (reachable : Reachable State.step Initial (fun _ _ => True) s) :
    s.Alert :=
  reachable.invariant_over (fun _ before => (invariant before).1) (fun _ initial => initial.alert)
    fun _ _ _ counted alert _ taken => alert.step counted taken

theorem Counted.live (counted : s.Counted) (lined : s.Lined) (alert : s.Alert) : s.Live :=
  ⟨fun _ _ waits => counted.moves lined alert waits, acyclic lined, alert⟩

theorem live_of_reachable (reachable : Reachable State.step Initial (fun _ _ => True) s) :
    s.Live := by
  obtain ⟨counted, lined⟩ := invariant reachable
  exact counted.live lined (alert_of_reachable reachable)

/-- The writer of `/d` waits for a reader that has its complete set. -/
theorem live_readersThenWriter :
    ∃ s, run State.step {} (readersThenWriter.take 18) = some s ∧
      s.WaitsOn 2 ⟨"/d".toList, .write⟩ ∧ s.Live := by
  obtain ⟨s, ran⟩ := Option.isSome_iff_exists.mp
    (by decide +kernel : (run State.step {} (readersThenWriter.take 18)).isSome = true)
  have last : (run State.step {} (readersThenWriter.take 18)).map (·.calls[2]?) =
      some (some (.waiting [⟨"/".toList, .read⟩] ⟨"/d".toList, .write⟩ [] false)) := by
    decide +kernel
  rw [ran, Option.map_some, Option.some.injEq] at last
  exact ⟨s, ran, ⟨_, _, _, last⟩, live_of_reachable (reachable_run_true rfl ran)⟩

end State

end Gfs.Master.LockTable
