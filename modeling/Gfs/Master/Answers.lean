import Gfs.Master.Places

/-!
# What `FindLeaseHolder` answers

A call answers with a chunk that its position held alone when it was read. It still does when the
call answers, unless another call has replaced the chunk in the meantime: `CopyOnWrite` looks at the
count before it copies and not again before it replaces, and the count can fall to one in between.
-/

namespace Gfs.Master
open Lib.Maps Lib.Transition LockTable ChunkTable

/-- The chunk with which the call will answer if its lease is valid or granted. -/
def Find.decided (f : Find) : Option Handle :=
  match f.phase with
  | .decide handle | .queued handle | .granting handle | .granted handle => some handle
  | _ => none

namespace Live

/-- No call for the same position has gone on past the test of the count when a `CopyOnWrite`
replaces the chunk. -/
def copiesAlone (cfg : Config) (s : Live) : Action → Bool
  | .endCopy id ok =>
      match s.calls[id]? with
      | some (.find f) => !enough cfg ok || s.calls.toList.all fun entry =>
          match entry.2 with
          | .find g => !(g.path = f.path && g.index = f.index && g.decided.isSome)
          | _ => true
      | _ => true
  | _ => true

/-- A call that has decided on a chunk has it at its position. -/
def Settled (s : Live) : Prop :=
  ∀ (id : Nat) f handle, s.calls[id]? = some (.find f) → f.decided = some handle →
    s.position f.path f.index = some handle

section
variable {cfg : Config} {s s' : Live} {a : Action} {id : Nat} {f : Find} {handle : Handle}
  {path : Str} {index : Nat} {phase : FindPhase}

theorem Holds.sole (holds : s.Holds f) (decided : f.decided = some handle)
    (position : s.position f.path f.index = some handle) :
    references s.state.files handle = 1 := by
  have few : references s.state.files handle = 0 ∨ s.Sole f handle := by
    obtain ⟨path, index, phase⟩ := f
    cases phase <;> cases decided <;> exact holds.few
  rcases few with none | sole
  · exact absurd (position_pos position) (by rw [none]; exact Nat.lt_irrefl 0)
  · exact sole.2

theorem decided_next (sound : Sound s) (settled : Settled s) (call : s.calls[id]? = some (.find f))
    (next : FindStep s s' id f phase)
    (decided : Find.decided ⟨f.path, f.index, phase⟩ = some handle) :
    s.position f.path f.index = some handle := by
  have holds := sound.placed.finds id f call
  have before := settled id f handle call
  obtain ⟨path, index, phase⟩ := f
  cases next with
  | unshared phase position => cases decided; exact position
  | moved phase position => cases decided; exact position
  | sole phase position => cases decided; exact position
  | copied phase => cases phase; cases decided; exact holds.1
  | queued phase => cases phase; cases decided; exact before rfl
  | granting phase => cases phase; cases decided; exact before rfl
  | granted phase => cases phase; cases decided; exact before rfl
  | _ => cases decided

theorem Settled.preserved (sound : Sound s) (settled : Settled s) (allowed : orderly s a = true)
    (alone : copiesAlone cfg s a = true) (wrote : Wrote cfg s a s') (turn : Turn cfg s s') :
    Settled s' := by
  intro i g handle found decided
  rcases sound.placed.steady_or sound.named sound.accounted allowed wrote with
    steady | ⟨id, ok, f, old, fresh, holders, seq, rfl, isEnough, call, phase, calls, state⟩ | calls
  · rcases finds_of_turn turn found with ⟨before, there, path, index, next⟩ | ⟨_, phase⟩
    · have position : s.position before.path before.index = some handle := by
        rcases next with rfl | next
        · exact settled i before handle there decided
        · obtain ⟨_, _, phase⟩ := g
          dsimp only at path index next
          subst path index
          exact decided_next sound settled there next decided
      rw [← path, ← index]
      exact (steady i before there).position position
    · obtain ⟨_, _, _⟩ := g
      cases phase
      cases decided
  · rw [calls, getElem?_insert] at found
    split at found
    · cases found
      cases decided
    · -- the call is not for the position, so the position stays
      have elsewhere : ¬ (f.path = g.path ∧ f.index = g.index) := by
        rintro ⟨path, index⟩
        have others := alone
        simp only [copiesAlone, call, isEnough, Bool.not_true, Bool.false_or] at others
        have one := List.all_eq_true.mp others (i, .find g)
          (Std.ExtTreeMap.mem_toList_iff_getElem?_eq_some.mpr found)
        simp [path, index, decided] at one
      have pending := sound.accounted.creating id _ fresh call (creating_find phase)
      have position : s.position f.path f.index = some old := by
        have holds := sound.placed.finds id f call
        obtain ⟨path, index, _⟩ := f
        cases phase
        exact holds
      obtain ⟨file, inFiles, there, files, _⟩ := files_replaced sound.accounted position pending state
      obtain ⟨inside, _⟩ := List.getElem?_eq_some_iff.mp there
      rw [position_replaced inFiles inside files, if_neg elsewhere]
      exact settled i g handle found decided
  · rw [calls] at found
    simp at found

theorem settled_of_allowed (reachable : Reachable (step cfg) Initial
    (fun s a => orderly s a = true ∧ copiesAlone cfg s a = true) s) : Sound s ∧ Settled s := by
  have sure : ∀ s, Reachable (step cfg) Initial
      (fun s a => orderly s a = true ∧ copiesAlone cfg s a = true) s → Sound s :=
    fun s before => sound_of_orderly (before.mono fun _ _ allowed => allowed.1)
  refine ⟨sure s reachable, reachable.invariant_over sure (fun s initial => ?_) ?_⟩
  · intro id f handle found
    subst initial
    simp at found
  · intro s a s' sound settled allowed taken
    obtain ⟨wrote, turn⟩ := act_section taken
    exact Settled.preserved sound.silent settled allowed.1 allowed.2 wrote turn

theorem position_unique (one : references s.state.files handle = 1)
    (position : s.position path index = some handle) {path' : Str} {index' : Nat}
    (position' : s.position path' index' = some handle) : path' = path ∧ index' = index := by
  obtain ⟨file, found, there⟩ := position_eq.mp position
  obtain ⟨file', found', there'⟩ := position_eq.mp position'
  obtain rfl := eq_of_references_one one found (List.mem_of_getElem? there) found'
    (List.mem_of_getElem? there')
  obtain rfl := Option.some.inj (found.symm.trans found')
  refine ⟨rfl, ?_⟩
  by_contra different
  have few : file.chunks.count handle ≤ 1 := by
    rw [← one]
    exact le_total (f := fun _ file => file.chunks.count handle) found
  -- with another handle at the one index, the chunk is still at the other
  obtain ⟨inside, atIndex⟩ := List.getElem?_eq_some_iff.mp there
  have left : (file.chunks.set index (handle + 1)).count handle = file.chunks.count handle - 1 := by
    rw [List.count_set inside, atIndex]
    simp
  have still : (file.chunks.set index (handle + 1))[index']? = some handle := by
    rw [List.getElem?_set_ne (Ne.symm different)]
    exact there'
  have positive := List.count_pos_iff.mpr (List.mem_of_getElem? still)
  omega

end

/-- A file and its snapshot share chunk 1. Call 8 begins a copy-on-write of it; the snapshot is
removed for good, so call 9 gets a lease of chunk 1 before call 8 replaces it by chunk 2. -/
def lateCopy : List Action :=
  [.create 0 fileA, .flush 1, .done 0, .addChunk 1 fileA 0, .alloc 1, .touch 2 serverP, .flush 2,
    .endAdd 1 [serverP], .flush 3, .done 1, .move 3 .snapshot fileA fileS, .revoke 3, .finish 3,
    .flush 4, .done 3, .findLeaseHolder 8 fileA 0, .attempt 8, .copyOnWrite 8, .alloc 8, .flush 5,
    .remove 5 fileS 5, .flush 6, .done 5, .remove 6 "/.deleted.5.s".toList 6, .flush 7, .done 6,
    .findLeaseHolder 9 fileA 0, .attempt 9, .decideLease 9, .grant 9, .prepare 1, .settle 1 [],
    .flush 8, .endGrant 1, .endCopy 8 [serverP], .respond 9]

/-- A copy-on-write that keeps its place, and the lease of the copy. -/
def soleCopy : List Action :=
  [.create 0 fileA, .flush 1, .done 0, .addChunk 1 fileA 0, .alloc 1, .touch 2 serverP, .flush 2,
    .endAdd 1 [serverP], .flush 3, .done 1, .move 3 .snapshot fileA fileS, .revoke 3, .finish 3,
    .flush 4, .done 3, .findLeaseHolder 8 fileA 0, .attempt 8, .copyOnWrite 8, .alloc 8, .flush 5,
    .endCopy 8 [serverP], .flush 6, .copied 8, .decideLease 8, .grant 8, .prepare 2, .settle 2 [],
    .flush 7, .endGrant 2, .respond 8]

end Live

end Gfs.Master
