import Mathlib

/-!
# Paths to the nearest

A path that goes from each of its points to a nearest one of those that are left. A cohesive set is
one whose points are nearer to each other than to any point outside; such a path goes through it
without leaving it in between.
-/

namespace Gfs.Lib.Nearest

variable {α δ : Type*} [LinearOrder δ]

/-- Every point of the path is a nearest one to its predecessor among those that are left. -/
def Path (distance : α → α → δ) : α → List α → Prop
  | _, [] => True
  | current, point :: rest =>
      (∀ other ∈ rest, distance current point ≤ distance current other) ∧ Path distance point rest

/-- Among these points, those of the set are nearer to each other than to the others. -/
def Cohesive (distance : α → α → δ) (points : List α) (inside : α → Prop) : Prop :=
  ∀ x ∈ points, ∀ y ∈ points, ∀ z ∈ points, inside x → inside y → ¬ inside z →
    distance x y < distance x z

def Together (inside : α → Prop) (points : List α) : Prop :=
  ∃ before within after, points = before ++ within ++ after ∧ (∀ x ∈ before, ¬ inside x) ∧
    (∀ x ∈ within, inside x) ∧ ∀ x ∈ after, ¬ inside x

variable {distance : α → α → δ} {inside : α → Prop} {current point : α} {points rest : List α}

theorem Cohesive.tail (cohesive : Cohesive distance (point :: points) inside) :
    Cohesive distance points inside := by
  intro x first y second z third
  apply cohesive x (List.mem_cons_of_mem _ first) y (List.mem_cons_of_mem _ second) z
    (List.mem_cons_of_mem _ third)

theorem Path.stays (path : Path distance current points)
    (cohesive : Cohesive distance (current :: points) inside) (here : inside current) :
    ∃ within after, points = within ++ after ∧ (∀ x ∈ within, inside x) ∧
      ∀ x ∈ after, ¬ inside x := by
  induction points generalizing current with
  | nil => exact ⟨[], [], rfl, by simp, by simp⟩
  | cons point rest ih =>
      obtain ⟨nearest, path⟩ := path
      by_cases there : inside point
      · obtain ⟨within, after, split, all, none⟩ := ih path cohesive.tail there
        refine ⟨point :: within, after, by rw [split]; rfl, ?_, none⟩
        intro x member
        rcases List.mem_cons.mp member with rfl | later
        · exact there
        · exact all x later
      · refine ⟨[], point :: rest, rfl, by simp, ?_⟩
        intro x member
        rcases List.mem_cons.mp member with rfl | later
        · exact there
        · intro also
          have closer := cohesive current List.mem_cons_self x
            (List.mem_cons_of_mem _ member) point
            (List.mem_cons_of_mem _ List.mem_cons_self) here also there
          exact absurd (nearest x later) (not_le_of_gt closer)

/-- A path to the nearest goes through a cohesive set at once. -/
theorem Path.together (path : Path distance current points)
    (cohesive : Cohesive distance points inside) : Together inside points := by
  induction points generalizing current with
  | nil => exact ⟨[], [], [], rfl, by simp, by simp, by simp⟩
  | cons point rest ih =>
      obtain ⟨_, path⟩ := path
      by_cases there : inside point
      · obtain ⟨within, after, split, all, none⟩ := path.stays cohesive there
        refine ⟨[], point :: within, after, by rw [split]; rfl, by simp, ?_, none⟩
        intro x member
        rcases List.mem_cons.mp member with rfl | later
        · exact there
        · exact all x later
      · obtain ⟨before, within, after, split, out, all, none⟩ := ih path cohesive.tail
        refine ⟨point :: before, within, after, by rw [split]; rfl, ?_, all, none⟩
        intro x member
        rcases List.mem_cons.mp member with rfl | later
        · exact there
        · exact out x later

end Gfs.Lib.Nearest
