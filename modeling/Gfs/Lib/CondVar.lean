import Mathlib

/-!
# Condition variables

Threads that share a mutex sleep on a condition variable. `notify_one` comes after the mutex is
given back, so it is a step of its own: `due` counts those that are still to come. A thread that is
`alert` is about to take the mutex and to look at what there is to do.
-/

namespace Gfs.Lib.CondVar

variable {α : Type*}

/-- `notify_one` wakes one of the threads that sleep, or nobody if none does. -/
def notifyOne (asleep : α → Bool) (wake : α) (threads : List α) : Option Nat → Option (List α)
  | none => if threads.any asleep then none else some threads
  | some i => if (threads[i]?).any asleep then some (threads.set i wake) else none

def notifyAll (asleep : α → Bool) (wake : α) (threads : List α) : List α :=
  threads.map fun thread => if asleep thread then wake else thread

/-- For every piece of work there is a thread that will look at it, unless none sleeps. -/
def Covered (asleep alert : α → Bool) (threads : List α) (work due : Nat) : Prop :=
  (∀ thread ∈ threads, asleep thread = false) ∨ work ≤ threads.countP alert + due

section
variable {asleep alert : α → Bool} {wake thread next : α} {threads after : List α}
  {work due i : Nat}

theorem mem_notifyAll (awake : asleep wake = false)
    (member : thread ∈ notifyAll asleep wake threads) :
    asleep thread = false := by
  obtain ⟨before, -, rfl⟩ := List.mem_map.mp member
  by_cases sleeps : asleep before = true
  · rw [if_pos sleeps]
    exact awake
  · rw [if_neg sleeps]
    simpa using sleeps

theorem length_notifyAll : (notifyAll asleep wake threads).length = threads.length :=
  List.length_map _

theorem countP_set_add (p : α → Bool) (next : α) (found : threads[i]? = some thread) :
    (threads.set i next).countP p + (p thread).toNat = threads.countP p + (p next).toNat := by
  obtain ⟨inside, rfl⟩ := List.getElem?_eq_some_iff.mp found
  have here : (p threads[i]).toNat ≤ threads.countP p := by
    cases holds : p threads[i] with
    | false => exact Nat.zero_le _
    | true => exact List.countP_pos_iff.mpr ⟨_, List.getElem_mem inside, holds⟩
  rw [List.countP_set inside]
  generalize threads.countP p = count at here ⊢
  generalize p threads[i] = before at here ⊢
  generalize p next = now
  cases before with
  | false => cases now <;> simp
  | true =>
      rw [Bool.toNat_true] at here
      cases now <;> simp <;> omega

theorem Covered.post (covered : Covered asleep alert threads work due) :
    Covered asleep alert threads (work + 1) (due + 1) := by
  rcases covered with none | enough
  · exact .inl none
  · exact .inr (Nat.succ_le_succ enough)

theorem notifyOne_cases {target : Option Nat}
    (notified : notifyOne asleep wake threads target = some after) :
    ((∀ thread ∈ threads, asleep thread = false) ∧ after = threads) ∨
      ∃ i thread, threads[i]? = some thread ∧ asleep thread = true ∧
        after = threads.set i wake := by
  cases target with
  | none =>
      simp only [notifyOne, Option.ite_none_left_eq_some, Option.some.injEq] at notified
      obtain ⟨nobody, rfl⟩ := notified
      refine .inl ⟨fun thread member => ?_, rfl⟩
      by_contra sleeps
      exact nobody (List.any_eq_true.mpr ⟨thread, member, by simpa using sleeps⟩)
  | some i =>
      simp only [notifyOne, Option.ite_none_right_eq_some, Option.some.injEq] at notified
      obtain ⟨sleeps, rfl⟩ := notified
      obtain ⟨thread, found, sleeps⟩ := (Option.any_eq_true _ _).mp sleeps
      exact .inr ⟨i, thread, found, sleeps, rfl⟩

/-- The thread that is woken looks, so that the notification is not lost. -/
theorem Covered.notify {target : Option Nat} (looks : alert wake = true)
    (apart : ∀ thread, asleep thread = true → alert thread = false)
    (covered : Covered asleep alert threads work (due + 1))
    (notified : notifyOne asleep wake threads target = some after) :
    Covered asleep alert after work due := by
  rcases notifyOne_cases notified with ⟨nobody, rfl⟩ | ⟨i, thread, found, sleeps, rfl⟩
  · exact .inl nobody
  · rcases covered with nobody | enough
    · rw [nobody thread (List.mem_of_getElem? found)] at sleeps
      cases sleeps
    · right
      have count := countP_set_add alert wake found
      rw [apart thread sleeps, looks, Bool.toNat_false, Bool.toNat_true] at count
      omega

theorem Covered.spurious (looks : alert wake = true)
    (apart : ∀ thread, asleep thread = true → alert thread = false)
    (covered : Covered asleep alert threads work due) (found : threads[i]? = some thread)
    (sleeps : asleep thread = true) :
    Covered asleep alert (threads.set i wake) work due := by
  rcases covered with nobody | enough
  · rw [nobody thread (List.mem_of_getElem? found)] at sleeps
    cases sleeps
  · right
    have count := countP_set_add alert wake found
    rw [apart thread sleeps, looks, Bool.toNat_false, Bool.toNat_true] at count
    omega

theorem Covered.take (covered : Covered asleep alert threads (work + 1) due)
    (found : threads[i]? = some thread) (awake : asleep next = false) :
    Covered asleep alert (threads.set i next) work due := by
  rcases covered with nobody | enough
  · left
    intro other member
    rcases List.mem_or_eq_of_mem_set member with old | rfl
    · exact nobody other old
    · exact awake
  · right
    have count := countP_set_add alert next found
    have one : (alert thread).toNat ≤ 1 := Bool.toNat_le _
    omega

theorem Covered.nothing : Covered asleep alert threads 0 due := .inr (Nat.zero_le _)

theorem Covered.comeBack (covered : Covered asleep alert threads work due)
    (found : threads[i]? = some thread) (busy : alert thread = false)
    (awake : asleep next = false) :
    Covered asleep alert (threads.set i next) work due := by
  rcases covered with nobody | enough
  · left
    intro other member
    rcases List.mem_or_eq_of_mem_set member with old | rfl
    · exact nobody other old
    · exact awake
  · right
    have count := countP_set_add alert next found
    rw [busy, Bool.toNat_false] at count
    omega

/-- Where nobody is about to look and no notification is to come, work means that nobody sleeps. -/
theorem Covered.awake (covered : Covered asleep alert threads work 0)
    (quiet : ∀ thread ∈ threads, alert thread = false) (some : 0 < work) :
    ∀ thread ∈ threads, asleep thread = false := by
  rcases covered with nobody | enough
  · exact nobody
  · have none : threads.countP alert = 0 := by
      rw [List.countP_eq_zero]
      intro thread member
      rw [quiet thread member]
      exact Bool.false_ne_true
    omega

end

end Gfs.Lib.CondVar
