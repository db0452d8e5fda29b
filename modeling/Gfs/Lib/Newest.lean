import Mathlib

/-!
# Copies that are brought in line report by report

A coordinator remembers the highest version that it has heard of. Whoever has a copy reports it, and
keeps it if it is sound and no older than that. After everybody has reported and then everybody
again, in any order within each of the two rounds, what is left is the sound copies of the highest
version.
-/

namespace Gfs.Lib.Newest
variable {ι ν : Type*} [LinearOrder ν] [OrderBot ν]

/-- The version of the coordinator, the copies, which of them are corrupt, and which the coordinator
lists. -/
structure View (ι ν : Type*) where
  version : ν
  stored : ι → Option ν
  corrupt : ι → Bool
  listed : ι → Bool

namespace View

def newest (v : View ι ν) (servers : List ι) : ν :=
  servers.foldl (fun version server => max version ((v.stored server).getD ⊥)) v.version

variable {v w : View ι ν} {server : ι} {servers : List ι}

theorem newest_append : v.newest (servers ++ [server]) =
    max (v.newest servers) ((v.stored server).getD ⊥) := List.foldl_append

theorem le_newest (member : server ∈ servers) : (v.stored server).getD ⊥ ≤ v.newest servers := by
  induction servers using List.reverseRecOn with
  | nil => cases member
  | append_singleton servers last ih =>
      rw [newest_append]
      rcases List.mem_append.mp member with earlier | here
      · exact (ih earlier).trans (le_max_left _ _)
      · rw [List.mem_singleton.mp here]
        exact le_max_right _ _

section
variable [DecidableEq ι]

def report (v : View ι ν) (server : ι) : View ι ν :=
  let stays := (v.stored server).any (v.version ≤ ·) && !v.corrupt server
  { version := max v.version ((v.stored server).getD ⊥)
    stored := Function.update v.stored server (if stays then v.stored server else none)
    corrupt := Function.update v.corrupt server false
    listed := Function.update v.listed server stays }

theorem report_listed (listed : ∀ server, v.listed server = true → (v.stored server).isSome)
    {last : ι} (server : ι) (there : (v.report last).listed server = true) :
    ((v.report last).stored server).isSome := by
  by_cases here : server = last
  · subst here
    simp only [report, Function.update_self] at there ⊢
    rw [if_pos there]
    cases stored : v.stored server with
    | none =>
        rw [stored] at there
        cases there
    | some version => rfl
  · simp only [report, Function.update_of_ne here] at there ⊢
    exact listed server there

/-- After some reports: who has not reported is as before, and who has is listed for what it has
left. -/
structure Heard (v : View ι ν) (servers : List ι) (w : View ι ν) : Prop where
  version : w.version = v.newest servers
  silent : ∀ server, server ∉ servers →
    w.stored server = v.stored server ∧ w.corrupt server = v.corrupt server ∧
      w.listed server = v.listed server
  spoken : ∀ server ∈ servers, w.corrupt server = false ∧
    w.listed server = (w.stored server).isSome ∧ (w.stored server = none ∨
      w.stored server = v.stored server ∧ v.corrupt server = false)
  kept : ∀ server, v.corrupt server = false → v.newest servers ≤ (v.stored server).getD ⊥ →
    w.stored server = v.stored server

theorem Heard.report (heard : Heard v servers w) (last : ι) :
    Heard v (servers ++ [last]) (w.report last) := by
  have known : (w.stored last = none ∧ last ∈ servers) ∨
      w.stored last = v.stored last ∧
        w.corrupt last = (v.corrupt last && decide (last ∉ servers)) := by
    by_cases before : last ∈ servers
    · obtain ⟨sound, -, gone | ⟨same, -⟩⟩ := heard.spoken last before
      · exact .inl ⟨gone, before⟩
      · exact .inr ⟨same, by simp [sound, before]⟩
    · obtain ⟨same, corrupt, -⟩ := heard.silent last before
      exact .inr ⟨same, by simp [corrupt, before]⟩
  refine ⟨?_, fun server absent => ?_, fun server member => ?_, fun server sound top => ?_⟩
  · rw [newest_append, View.report, heard.version]
    rcases known with ⟨gone, before⟩ | ⟨same, -⟩
    · rw [gone, Option.getD_none, max_bot_right, max_eq_left (le_newest before)]
    · rw [same]
  · have different : server ≠ last := fun same => absent (by simp [same])
    have earlier : server ∉ servers := fun member => absent (List.mem_append_left _ member)
    simp only [View.report, Function.update_of_ne different]
    exact heard.silent server earlier
  · by_cases here : server = last
    · subst here
      simp only [View.report, Function.update_self]
      refine ⟨trivial, ?_, ?_⟩
      · cases w.stored server with
        | none => rfl
        | some version =>
            cases (Option.some version).any (w.version ≤ ·) && !w.corrupt server <;> rfl
      · split
        · rename_i stays
          rcases known with ⟨gone, -⟩ | ⟨same, -⟩
          · exact .inl gone
          · by_cases before : server ∈ servers
            · obtain ⟨-, -, gone | both⟩ := heard.spoken server before
              · exact .inl gone
              · exact .inr both
            · refine .inr ⟨same, ?_⟩
              rw [← (heard.silent server before).2.1]
              simpa using (Bool.and_eq_true_iff.mp stays).2
        · exact .inl rfl
    · simp only [View.report, Function.update_of_ne here]
      apply heard.spoken
      simpa [here] using member
  · rw [newest_append] at top
    have before := heard.kept server sound ((le_max_left _ _).trans top)
    by_cases here : server = last
    · subst here
      simp only [View.report, Function.update_self]
      cases stored : v.stored server with
      | none => simp [before, stored]
      | some version =>
          have clear : w.corrupt server = false := by
            by_cases member : server ∈ servers
            · exact (heard.spoken server member).1
            · rw [(heard.silent server member).2.1, sound]
          rw [stored, Option.getD_some, max_le_iff] at top
          rw [before, stored, clear, heard.version]
          simp [top.1]
    · simp only [View.report, Function.update_of_ne here]
      exact before

theorem heard_foldl (v : View ι ν) (servers : List ι) :
    Heard v servers (servers.foldl report v) := by
  induction servers using List.reverseRecOn with
  | nil => exact ⟨rfl, fun _ _ => ⟨rfl, rfl, rfl⟩, nofun, fun _ _ _ => rfl⟩
  | append_singleton servers last ih =>
      rw [List.foldl_append, List.foldl_cons, List.foldl_nil]
      exact ih.report last

theorem settled_foldl (low : ∀ server ∈ servers, ∀ version ∈ v.stored server, version ≤ v.version) :
    (servers.foldl report v).version = v.version ∧ ∀ server ∈ servers,
      ∀ version ∈ (servers.foldl report v).stored server, version = v.version := by
  induction servers using List.reverseRecOn with
  | nil => exact ⟨rfl, nofun⟩
  | append_singleton servers last ih =>
      obtain ⟨version, settled⟩ := ih fun server member =>
        low server (List.mem_append_left _ member)
      have heard := heard_foldl v servers
      rw [List.foldl_append, List.foldl_cons, List.foldl_nil]
      generalize servers.foldl report v = w at version settled heard
      have bound : ∀ stored ∈ w.stored last, stored ≤ v.version := by
        intro stored there
        by_cases before : last ∈ servers
        · exact (settled last before stored there).le
        · rw [(heard.silent last before).1] at there
          exact low last (List.mem_append_right _ (List.mem_singleton.mpr rfl)) stored there
      have stays : (w.report last).version = v.version := by
        rw [View.report, version]
        cases there : w.stored last with
        | none => exact max_bot_right _
        | some stored => exact max_eq_left (bound stored there)
      refine ⟨stays, fun server member stored there => ?_⟩
      by_cases here : server = last
      · subst here
        simp only [View.report, Function.update_self] at there
        split at there
        · rename_i fresh
          rw [there, Option.any_some, version, Bool.and_eq_true, decide_eq_true_iff] at fresh
          exact le_antisymm (bound stored there) fresh.1
        · cases there
      · simp only [View.report, Function.update_of_ne here] at there
        exact settled server (by simpa [here] using member) stored there

/-- What everybody has after two rounds of reports. -/
theorem agreed {first second : List ι} (same : ∀ server, server ∈ first ↔ server ∈ second)
    (v : View ι ν) :
    let w := (first ++ second).foldl report v
    w.version = v.newest first ∧ ∀ server,
      (server ∈ first → w.listed server = (w.stored server).isSome ∧ ∀ version,
        w.stored server = some version ↔ v.stored server = some version ∧
          v.corrupt server = false ∧ version = v.newest first) ∧
      (server ∉ first → w.stored server = v.stored server ∧ w.listed server = v.listed server) := by
  intro w
  have once := heard_foldl v first
  have twice : Heard v (first ++ second) w := heard_foldl v (first ++ second)
  obtain ⟨version, settled⟩ : w.version = (first.foldl report v).version ∧
      ∀ server ∈ second, ∀ version ∈ w.stored server, version = (first.foldl report v).version := by
    have whole : w = second.foldl report (first.foldl report v) := List.foldl_append
    rw [whole]
    apply settled_foldl
    intro server member stored there
    rw [once.version]
    obtain ⟨-, -, gone | ⟨kept, -⟩⟩ := once.spoken server ((same server).mpr member)
    · rw [gone] at there
      cases there
    · rw [kept] at there
      have below : (v.stored server).getD ⊥ ≤ v.newest first :=
        le_newest ((same server).mpr member)
      rw [there] at below
      exact below
  have top : v.newest (first ++ second) = v.newest first := by
    rw [← twice.version, version, once.version]
  rw [once.version] at version settled
  refine ⟨version, fun server => ⟨fun member => ?_, fun absent => ?_⟩⟩
  · obtain ⟨-, listed, left⟩ := twice.spoken server (List.mem_append_left _ member)
    refine ⟨listed, fun stored => ⟨fun there => ?_, ?_⟩⟩
    · have newest := settled server ((same server).mp member) stored there
      rcases left with gone | ⟨kept, sound⟩
      · rw [gone] at there
        cases there
      · exact ⟨kept ▸ there, sound, newest⟩
    · rintro ⟨there, sound, rfl⟩
      have fresh : v.newest (first ++ second) ≤ (v.stored server).getD ⊥ := by
        rw [top, there]
        exact le_refl _
      rw [twice.kept server sound fresh, there]
  · have silent : server ∉ first ++ second := by
      rw [List.mem_append, not_or]
      exact ⟨absent, fun member => absent ((same server).mpr member)⟩
    obtain ⟨stored, -, listed⟩ := twice.silent server silent
    exact ⟨stored, listed⟩

end

end View

end Gfs.Lib.Newest
