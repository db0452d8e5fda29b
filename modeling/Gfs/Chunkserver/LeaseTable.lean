import Gfs.Common.Base

/-!
# `chunkserver/lease_table.cc`

The table maps a handle to a `Slot`; each method below is the method of the source on the slot of
its handle, `none` where `slots_` has no entry. `margin` is `skew_margin_`.
-/

namespace Gfs.Chunkserver

structure Slot where
  held : Bool := false
  expiry : TimePoint := 0
  secondaries : List ServerId := []
  nextSerial : Nat := 1
  mutatedSinceRenewal : Bool := false
deriving DecidableEq, Repr

inductive LeaseCheck
  | primary (secondaries : List ServerId)
  | expired
  | notHeld
deriving DecidableEq, Repr

/-- The secondaries of a lease that is good. -/
def LeaseCheck.list? : LeaseCheck → Option (List ServerId)
  | .primary secondaries => some secondaries
  | _ => none

namespace LeaseTable

def grant (margin : Duration) (now : TimePoint) (lease : Duration) (secondaries : List ServerId)
    (slot : Option Slot) : Slot :=
  { slot.getD {} with
    held := true
    expiry := now + lease - margin
    secondaries
    mutatedSinceRenewal := false }

/-- `Extend` does not look at the old expiry: a slot that has run out is revived. -/
def extend (margin : Duration) (now : TimePoint) (lease : Duration) (slot : Option Slot) :
    Option Slot :=
  slot.map fun s =>
    if s.held then { s with expiry := now + lease - margin, mutatedSinceRenewal := false } else s

def revoke (slot : Option Slot) : Option Slot :=
  slot.map fun s => { s with held := false, secondaries := [] }

def check (now : TimePoint) : Option Slot → LeaseCheck
  | none => .notHeld
  | some s =>
      if ¬ s.held then .notHeld else if s.expiry < now then .expired else .primary s.secondaries

def nextSerial (slot : Option Slot) : Nat × Slot :=
  let s := slot.getD {}
  (s.nextSerial, { s with mutatedSinceRenewal := true, nextSerial := s.nextSerial + 1 })

/-- Whether `HandlesToExtend` lists the handle of the slot. -/
def toExtend (now : TimePoint) : Option Slot → Bool
  | none => false
  | some s => s.held && decide (now ≤ s.expiry) && s.mutatedSinceRenewal

/-- The expiry of a lease that is held. -/
def heldUntil (slot : Option Slot) : Option TimePoint :=
  slot.bind fun s => if s.held then some s.expiry else none

/-- `Check` would return `kPrimary`. -/
def IsPrimary (now : TimePoint) (slot : Option Slot) : Prop :=
  ∃ expiry, heldUntil slot = some expiry ∧ now ≤ expiry

theorem heldUntil_eq_some {slot : Option Slot} {expiry : TimePoint} :
    heldUntil slot = some expiry ↔ ∃ s, slot = some s ∧ s.held = true ∧ s.expiry = expiry := by
  cases slot with
  | none => simp [heldUntil]
  | some s => cases held : s.held <;> simp [heldUntil, held]

@[simp] theorem heldUntil_grant (margin : Duration) (now : TimePoint) (lease : Duration)
    (secondaries : List ServerId) (slot : Option Slot) :
    heldUntil (some (grant margin now lease secondaries slot)) = some (now + lease - margin) := rfl

@[simp] theorem heldUntil_revoke (slot : Option Slot) : heldUntil (revoke slot) = none := by
  cases slot <;> rfl

@[simp] theorem heldUntil_extend (margin : Duration) (now : TimePoint) (lease : Duration)
    (slot : Option Slot) :
    heldUntil (extend margin now lease slot) =
      (heldUntil slot).map fun _ => now + lease - margin := by
  cases slot with
  | none => rfl
  | some s => cases held : s.held <;> simp [heldUntil, extend, held]

@[simp] theorem heldUntil_nextSerial (slot : Option Slot) :
    heldUntil (some (nextSerial slot).2) = heldUntil slot := by
  cases slot <;> rfl

theorem check_primary {now : TimePoint} {slot : Option Slot} {secondaries : List ServerId} :
    check now slot = .primary secondaries ↔
      ∃ s, slot = some s ∧ s.held = true ∧ now ≤ s.expiry ∧ s.secondaries = secondaries := by
  cases slot with
  | none => simp [check]
  | some s =>
      by_cases held : s.held = true
      · by_cases late : s.expiry < now
        · simp [check, held, late, not_le.mpr late]
        · simp [check, held, late, not_lt.mp late]
      · simp [check, held]

theorem isPrimary_iff_check {now : TimePoint} {slot : Option Slot} :
    IsPrimary now slot ↔ ∃ secondaries, check now slot = .primary secondaries := by
  simp only [check_primary, IsPrimary, heldUntil_eq_some]
  exact ⟨fun ⟨_, ⟨s, h, held, e⟩, time⟩ => ⟨_, s, h, held, e ▸ time, rfl⟩,
    fun ⟨_, s, h, held, time, _⟩ => ⟨_, ⟨s, h, held, rfl⟩, time⟩⟩

end LeaseTable

end Gfs.Chunkserver
