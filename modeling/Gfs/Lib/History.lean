import Mathlib

/-!
# Properties of a history

A history lists events, the oldest first. `Along P` says that every event meets `P` together with
the events before it, which is what a fence or an order says about a run.
-/

namespace Gfs.Lib.History

variable {ε : Type*}

def Along (P : List ε → ε → Prop) (history : List ε) : Prop :=
  ∀ before event after, history = before ++ event :: after → P before event

@[simp] theorem along_nil (P : List ε → ε → Prop) : Along P [] := by
  intro before event after h
  simp at h

theorem along_concat {P : List ε → ε → Prop} {history : List ε} {event : ε} :
    Along P (history ++ [event]) ↔ Along P history ∧ P history event := by
  constructor
  · intro h
    exact ⟨fun before e after split => h before e (after ++ [event]) (by simp [split]),
      h history event [] rfl⟩
  · rintro ⟨old, new⟩ before e after split
    rcases List.eq_nil_or_concat after with rfl | ⟨after, last, rfl⟩
    · obtain ⟨rfl, same⟩ := List.append_inj' split rfl
      cases same
      exact new
    · have split' : history ++ [event] = (before ++ e :: after) ++ [last] := by simp [split]
      exact old before e after (List.append_inj' split' rfl).1

theorem along_append {P : List ε → ε → Prop} {history : List ε} {events : List ε}
    (new : ∀ before event after, events = before ++ event :: after → P (history ++ before) event)
    (old : Along P history) : Along P (history ++ events) := by
  induction events using List.reverseRecOn with
  | nil => simpa using old
  | append_singleton events event ih =>
      rw [← List.append_assoc, along_concat]
      exact ⟨ih fun before e after split => new before e (after ++ [event]) (by simp [split]),
        new events event [] rfl⟩

end Gfs.Lib.History
