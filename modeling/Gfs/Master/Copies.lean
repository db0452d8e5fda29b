import Gfs.Master.Counts

/-!
# What a snapshot copies

A snapshot makes a copy of each visible file at or below its source, and each copy refers to the chunks
of its file once more. Where all files of the source are hidden it copies nothing and succeeds.
-/

namespace Gfs.Master
open Lib.Maps Lib.Transition Namespace

/-- The files at or below the path that are not hidden. -/
def visible (files : Namespace) (source : Str) : List (Str × FileMeta) :=
  files.toList.filter fun entry => isAncestorOrSelf source entry.1 && !isHiddenPath entry.1

/-- How often the files that a snapshot copies have the chunk. -/
def occurrences (files : Namespace) (source : Str) (handle : Handle) : Nat :=
  ((visible files source).flatMap (·.2.chunks)).count handle

structure Copied (source target : Str) (before after : MasterState) : Prop where
  stands : (after.files.contains target || after.files.isDirectory target) = true ↔
    ∃ p ∈ before.files, isAncestorOrSelf source p = true ∧ isHiddenPath p = false
  copies : ∀ p file, before.files[p]? = some file → isAncestorOrSelf source p = true →
    isHiddenPath p = false → after.files[rebase source target p]? = some file
  others : ∀ q, (∀ p ∈ before.files, isAncestorOrSelf source p = true → isHiddenPath p = false →
    q ≠ rebase source target p) → after.files[q]? = before.files[q]?
  refcounts : ∀ handle : Handle, after.chunks[handle]?.map (·.refcount) =
    before.chunks[handle]?.map fun m => m.refcount + occurrences before.files source handle

section
variable {s t u : MasterState} {source target : Str} {handle : Handle}

theorem mem_visible {path : Str} {file : FileMeta} {files : Namespace} :
    (path, file) ∈ visible files source ↔ files[path]? = some file ∧
      isAncestorOrSelf source path = true ∧ isHiddenPath path = false := by
  rw [visible, List.mem_filter, Std.ExtTreeMap.mem_toList_iff_getElem?_eq_some]
  simp

theorem subtree_perm {files : Namespace} (source' : source ≠ ['/']) :
    (files.subtree source true).Perm (visible files source) := by
  have distinct : ((files.subtree source true).map (·.1)).Nodup := nodup_subtree source'
  have distinct' : ((visible files source).map (·.1)).Nodup :=
    (nodup_toList files).sublist (List.filter_sublist.map _)
  refine (List.perm_ext_iff_of_nodup (.of_map _ distinct) (.of_map _ distinct')).mpr ?_
  rintro ⟨path, file⟩
  rw [mem_subtree source', mem_visible]
  simp

theorem foldl_addReference (handles : List Handle) (chunks : ChunkTable) :
    (handles.foldl ChunkTable.addReference chunks)[handle]? =
      chunks[handle]?.map fun m => { m with refcount := m.refcount + handles.count handle } := by
  induction handles generalizing chunks with
  | nil => cases found : chunks[handle]? <;> simp [found]
  | cons first rest ih =>
      rw [List.foldl_cons, ih, ChunkTable.addReference, getElem?_modify, List.count_cons]
      by_cases same : first = handle
      · subst same
        rw [if_pos rfl, if_pos (by simp)]
        cases chunks[first]? with
        | none => rfl
        | some m =>
            simp only [Option.map_some]
            congr 2
            omega
      · rw [if_neg same, if_neg (by simpa using same), Nat.add_zero]

theorem chunks_copyFile {entries : List (Str × FileMeta)}
    (distinct : (entries.map fun entry => rebase source target entry.1).Nodup)
    (absent : ∀ entry ∈ entries, rebase source target entry.1 ∉ s.files) :
    (entries.foldl (MasterState.copyFile source target) s).chunks[handle]? =
      s.chunks[handle]?.map fun m =>
        { m with refcount := m.refcount + (entries.flatMap (·.2.chunks)).count handle } := by
  induction entries generalizing s with
  | nil => cases found : s.chunks[handle]? <;> simp [found]
  | cons entry entries ih =>
      obtain ⟨once, distinct⟩ := List.nodup_cons.mp distinct
      have new : s.files.contains (rebase source target entry.1) = false := by
        rw [← Bool.not_eq_true, Std.ExtTreeMap.contains_iff_mem]
        exact absent entry List.mem_cons_self
      have copied : MasterState.copyFile source target s entry = { s with
          chunks := entry.2.chunks.foldl ChunkTable.addReference s.chunks
          files := s.files.insertIfNew (rebase source target entry.1) entry.2 } := by
        rw [MasterState.copyFile, if_neg (by simp [new])]
      rw [List.foldl_cons, copied, ih distinct, foldl_addReference, List.flatMap_cons,
        List.count_append, Option.map_map]
      · congr 1
        funext m
        simp only [Function.comp]
        congr 1
        omega
      · intro later member there
        rcases Std.ExtTreeMap.mem_insertIfNew.mp there with same | there
        · have same := Std.LawfulEqOrd.eq_of_compare same
          exact once (List.mem_map.mpr ⟨later, member, same.symm⟩)
        · exact absent later (List.mem_cons_of_mem _ member) there

theorem copied_applySnapshot (source' : source ≠ ['/']) (target' : target ≠ ['/'])
    (vacant : Vacant s.files target) : Copied source target s (s.applySnapshot source target) := by
  have copies : ∀ p file, s.files[p]? = some file → isAncestorOrSelf source p = true →
      isHiddenPath p = false →
      (s.applySnapshot source target).files[rebase source target p]? = some file := by
    intro p file found below shown
    rw [getElem?_snapshot_vacant source' target' vacant, if_pos isAncestorOrSelf_rebase,
      rebase_rebase source' target' below, shown, if_neg Bool.false_ne_true, found]
  refine ⟨?_, copies, ?_, ?_⟩
  · rw [stands_iff target']
    constructor
    · rintro ⟨q, member, below⟩
      obtain ⟨file, found⟩ := mem_iff.mp member
      rw [getElem?_snapshot_vacant source' target' vacant, if_pos below] at found
      split at found
      · cases found
      · rename_i shown
        exact ⟨rebase target source q, mem_iff.mpr ⟨file, found⟩, isAncestorOrSelf_rebase,
          by simpa using shown⟩
    · rintro ⟨p, member, below, shown⟩
      obtain ⟨file, found⟩ := mem_iff.mp member
      exact ⟨rebase source target p, mem_iff.mpr ⟨file, copies p file found below shown⟩,
        isAncestorOrSelf_rebase⟩
  · intro q elsewhere
    rw [getElem?_snapshot_vacant source' target' vacant]
    split
    · rename_i below
      rw [vacant.getElem? below]
      split
      · rfl
      · rename_i shown
        refine Std.ExtTreeMap.getElem?_eq_none fun member => ?_
        exact elsewhere _ member isAncestorOrSelf_rebase (by simpa using shown)
          (rebase_rebase target' source' below).symm
    · rfl
  · intro handle
    have perm : (s.files.subtree source true).Perm (visible s.files source) := subtree_perm source'
    have below : ∀ entry ∈ s.files.subtree source true, isAncestorOrSelf source entry.1 = true :=
      fun entry member => ((mem_subtree source').mp member).2.1
    have distinct : ((s.files.subtree source true).map fun entry =>
        rebase source target entry.1).Nodup := by
      have distinct : ((s.files.subtree source true).map (·.1)).Nodup := nodup_subtree source'
      rw [List.Nodup, List.pairwise_map] at distinct ⊢
      refine distinct.imp_of_mem fun {a b} inA inB different same => different ?_
      exact rebase_injective source' target' (below a inA) (below b inB) same
    have absent : ∀ entry ∈ s.files.subtree source true, rebase source target entry.1 ∉ s.files := by
      intro entry _ there
      have outside := vacant _ there
      rw [isAncestorOrSelf_rebase] at outside
      cases outside
    rw [MasterState.applySnapshot, chunks_copyFile distinct absent, Option.map_map, occurrences,
      (perm.flatMap_right _).count_eq]
    rfl

end

/-! ## The whole call -/

namespace Live

/-- Not a section that changes the namespace or what the files refer to. -/
def keepsNames : Action → Bool
  | .create .. | .remove .. | .finish .. | .alloc .. | .endCopy .. | .endAdd .. | .gcRemove ..
  | .gcDrop .. | .restart .. => false
  | _ => true

/-- The files and the references in the table are the same. -/
structure Same (s t : MasterState) : Prop where
  files : t.files = s.files
  refcounts : ∀ handle : Handle, t.chunks[handle]?.map (·.refcount) = s.chunks[handle]?.map (·.refcount)

section
variable {cfg : Config} {s t u : Live} {a : Action} {id : Nat} {m : Move}

theorem Same.refl {s : MasterState} : Same s s := ⟨rfl, fun _ => rfl⟩

theorem Same.trans {s t u : MasterState} (first : Same s t) (second : Same t u) : Same s u :=
  ⟨second.files.trans first.files, fun handle => (second.refcounts handle).trans (first.refcounts handle)⟩

theorem refcount_tended {chunks chunks' : ChunkTable} {records : List LogRecord}
    (tended : Tended chunks chunks' records) (handle : Handle) :
    chunks'[handle]?.map (·.refcount) = chunks[handle]?.map (·.refcount) := by
  cases found : chunks[handle]? with
  | none => rw [tended.absent handle found]
  | some m =>
      obtain ⟨m', found', refcount, -⟩ := tended.present handle m found
      rw [found', Option.map_some, Option.map_some, refcount]

theorem Kept.keeps {records : List LogRecord} (kept : Kept s t records) : Same s.state t.state :=
  ⟨kept.files, refcount_tended kept.chunks⟩

theorem kept_of_keepsNames (keeps : keepsNames a = true) (wrote : Wrote cfg s a t) :
    ∃ records, Kept s t records := by
  cases wrote with
  | quiet kept => exact ⟨_, kept⟩
  | heard kept => exact ⟨_, kept⟩
  | committed grant found chunks kept => exact ⟨_, kept⟩
  | removed free there isRemoval =>
      rcases isRemoval with ⟨_, _, rfl, -⟩ | ⟨_, _, _, rfl, -⟩ <;> cases keeps
  | abandoned call creating calls state log ends =>
      obtain ⟨_, rfl | rfl, -⟩ := ends <;> cases keeps
  | _ => cases keeps

def Meanwhile (cfg : Config) (id : Nat) : Live → Live → Prop :=
  Relation.ReflTransGen fun s t => id ∈ t.calls ∧ ∃ a, keepsNames a = true ∧ step cfg s a = some t

theorem move_stays {records : List LogRecord} (kept : Kept s t records) (turn : Turn cfg s t)
    (call : s.calls[id]? = some (.move m)) (on : id ∈ t.calls) :
    ∃ m', t.calls[id]? = some (.move m') ∧ m'.kind = m.kind ∧ m'.source = m.source ∧
      m'.target = m.target := by
  have elsewhere : ∀ {other : Nat} {task : Task}, other ≠ id →
      t.calls = s.calls.insert other task → t.calls[id]? = some (.move m) := by
    intro other task different calls
    rw [calls, getElem?_insert, if_neg different, call]
  have erased : ∀ {other : Nat}, t.calls = s.calls.erase other →
      t.calls[id]? = some (.move m) := by
    intro other calls
    rw [calls, getElem?_erase, if_neg, call]
    rintro rfl
    simp [calls] at on
  cases turn with
  | same calls => exact ⟨m, by rw [calls, call], rfl, rfl, rfl⟩
  | begun other task fresh free begins calls =>
      refine ⟨m, elsewhere ?_ calls, rfl, rfl, rfl⟩
      rintro rfl
      exact nomatch fresh.symm.trans call
  | turned other task task' found calls advances =>
      by_cases same : other = id
      · subst same
        obtain rfl : task = .move m := Option.some.inj (found.symm.trans call)
        cases advances with
        | moving kind source target =>
            exact ⟨_, by rw [calls, getElem?_insert, if_pos rfl], kind, source, target⟩
        | finishing same notFind moved =>
            -- the sections that end such a call write its record
            obtain ⟨record, log, isMove⟩ := moved m rfl
            have same := List.append_cancel_left (kept.log.symm.trans log)
            obtain ⟨_, _, isBump⟩ := kept.chunks.bumps record (same ▸ List.mem_singleton.mpr rfl)
            subst isBump
            rcases isMove with other | other <;> cases other
      · exact ⟨m, elsewhere same calls, rfl, rfl, rfl⟩
  | ended other task found idle calls => exact ⟨m, erased calls, rfl, rfl, rfl⟩
  | answered other f handle found phase calls => exact ⟨m, erased calls, rfl, rfl, rfl⟩
  | lost calls => simp [calls] at on

theorem meanwhile_same (waited : Meanwhile cfg id s t) : Same s.state t.state := by
  induction waited with
  | refl => exact .refl
  | tail _ taken ih =>
      obtain ⟨-, a, keeps, taken⟩ := taken
      obtain ⟨wrote, -⟩ := act_section taken
      obtain ⟨records, kept⟩ := kept_of_keepsNames keeps wrote
      exact ih.trans kept.keeps

theorem meanwhile_move (waited : Meanwhile cfg id s t) (call : s.calls[id]? = some (.move m)) :
    ∃ m', t.calls[id]? = some (.move m') ∧ m'.kind = m.kind ∧ m'.source = m.source ∧
      m'.target = m.target := by
  induction waited with
  | refl => exact ⟨m, call, rfl, rfl, rfl⟩
  | tail _ taken ih =>
      obtain ⟨on, a, keeps, taken⟩ := taken
      obtain ⟨before, found, kind, source, target⟩ := ih
      obtain ⟨wrote, turn⟩ := act_section taken
      obtain ⟨records, kept⟩ := kept_of_keepsNames keeps wrote
      obtain ⟨after, found', kind', source', target'⟩ := move_stays kept turn found on
      exact ⟨after, found', kind'.trans kind, source'.trans source, target'.trans target⟩

theorem accepted_move {kind : MoveKind} {source target : Str} (fresh : s.calls[id]? = none)
    (asked : step cfg s (.move id kind source target) = some t) (accepted : id ∈ t.calls) :
    source ≠ ['/'] ∧ target ≠ ['/'] ∧ Vacant s.state.files target ∧ t.state = s.state ∧
      ∃ m, t.calls[id]? = some (.move m) ∧ m.kind = kind ∧ m.source = source ∧ m.target = target := by
  have absent : id ∉ s.calls := by
    rw [Std.ExtTreeMap.mem_iff_isSome_getElem?, fresh]
    exact Bool.false_ne_true
  simp only [step, act, Live.move] at asked
  split at asked
  · cases asked
    exact absurd accepted absent
  · rename_i valid
    simp only [Bool.or_eq_true, Bool.not_eq_true', decide_eq_true_eq, not_or, Bool.not_eq_false]
      at valid
    obtain ⟨⟨⟨source', target'⟩, -⟩, -⟩ := valid
    have notRoot : ∀ {path : Str}, checkPath path = true → path ≠ ['/'] := by
      intro path valid
      simpa using (Bool.and_eq_true_iff.mp valid).2
    obtain ⟨-, -, rfl⟩ := begin_eq asked
    split at accepted
    · rename_i both
      have isOpen := (Bool.and_eq_true_iff.mp both).2
      have none := (Bool.and_eq_true_iff.mp isOpen).1
      rw [if_pos both]
      exact ⟨notRoot source', notRoot target',
        vacant_of_checks (notRoot target') (by simpa using none), rfl, _,
        by rw [setCall, getElem?_insert, if_pos rfl], rfl, rfl, rfl⟩
    · exact absurd accepted absent

theorem finish_snapshot (call : s.calls[id]? = some (.move m)) (kind : m.kind = .snapshot)
    (finished : step cfg s (.finish id) = some t) :
    ∃ chunks, Tended s.state.chunks chunks [] ∧
      t.state = { s.state with chunks }.applySnapshot m.source m.target := by
  simp only [step, act, Live.finish, call, kind] at finished
  split at finished
  · split at finished
    · cases finished
    · cases finished
      exact ⟨_, resetInvalid_tended, rfl⟩
  · cases finished

/-- A snapshot with no other change of the namespace in between. -/
theorem snapshot_copies {v w x : Live} {source target : Str} (fresh : s.calls[id]? = none)
    (asked : step cfg s (.move id .snapshot source target) = some t) (accepted : id ∈ t.calls)
    (waited : Meanwhile cfg id t u) (finished : step cfg u (.finish id) = some v)
    (flushed : Meanwhile cfg id v w) (answered : step cfg w (.done id) = some x) :
    Copied source target s.state x.state := by
  obtain ⟨source', target', vacant, state, m, call, kind, rfl, rfl⟩ :=
    accepted_move fresh asked accepted
  obtain ⟨m', call', kind', sameSource, sameTarget⟩ := meanwhile_move waited call
  have before := meanwhile_same waited
  rw [state] at before
  obtain ⟨chunks, tended, result⟩ := finish_snapshot call' (kind'.trans kind) finished
  rw [sameSource, sameTarget] at result
  have after : Same v.state x.state := by
    obtain ⟨wrote, -⟩ := act_section answered
    obtain ⟨records, kept⟩ := kept_of_keepsNames rfl wrote
    exact (meanwhile_same flushed).trans kept.keeps
  have copied : Copied m.source m.target { u.state with chunks } v.state := by
    rw [result]
    exact copied_applySnapshot source' target' (before.files ▸ vacant)
  have count : ∀ handle : Handle, chunks[handle]?.map (·.refcount) =
      s.state.chunks[handle]?.map (·.refcount) :=
    fun handle => (refcount_tended tended handle).trans (before.refcounts handle)
  refine ⟨?_, ?_, ?_, fun handle => ?_⟩
  · rw [after.files, copied.stands, before.files]
  · rw [after.files, ← before.files]
    exact copied.copies
  · rw [after.files, ← before.files]
    exact copied.others
  · have grown := copied.refcounts handle
    dsimp only at grown
    rw [after.refcounts, grown, before.files]
    have same := congrArg
      (Option.map (· + occurrences s.state.files m.source handle)) (count handle)
    rwa [Option.map_map, Option.map_map] at same

end

def oneChunk : List Action :=
  [.touch 0 ['p'], .hear 0 {}, .create 1 ['/', 'a'], .flush 1, .done 1, .addChunk 2 ['/', 'a'] 0,
    .alloc 2, .flush 2, .endAdd 2 [['p']], .flush 3, .done 2]

theorem snapshot_copies_oneChunk :
    ∃ s x, run (step {}) {} oneChunk = some s ∧
      s.state.files[['/', 'a']]? = some { chunks := [1] } ∧
      run (step {}) s [.move 3 .snapshot ['/', 'a'] ['/', 'b'], .revoke 3, .finish 3,
        .flush 4, .done 3] = some x ∧
      Copied ['/', 'a'] ['/', 'b'] s.state x.state := by
  obtain ⟨s, ran⟩ := Option.isSome_iff_exists.mp
    (by decide +kernel : (run (step {}) {} oneChunk).isSome = true)
  have all : ((run (step {}) {} oneChunk).bind fun s => (step {} s
      (.move 3 .snapshot ['/', 'a'] ['/', 'b'])).bind fun t => (step {} t (.revoke 3)).bind fun u =>
        (step {} u (.finish 3)).bind fun v => (step {} v (.flush 4)).bind fun w =>
          (step {} w (.done 3)).map fun _ => (s.calls.contains 3, t.calls.contains 3,
            u.calls.contains 3, w.calls.contains 3, s.state.files[['/', 'a']]?)) =
      some (false, true, true, true, some { chunks := [1] }) := by decide +kernel
  rw [ran, Option.bind_some] at all
  obtain ⟨t, asked, all⟩ := Option.bind_eq_some_iff.mp all
  obtain ⟨u, revoked, all⟩ := Option.bind_eq_some_iff.mp all
  obtain ⟨v, finished, all⟩ := Option.bind_eq_some_iff.mp all
  obtain ⟨w, flushed, all⟩ := Option.bind_eq_some_iff.mp all
  obtain ⟨x, answered, all⟩ := Option.map_eq_some_iff.mp all
  simp only [Prod.mk.injEq] at all
  obtain ⟨new, accepted, waiting, on, found⟩ := all
  have fresh : s.calls[3]? = none := Std.ExtTreeMap.getElem?_eq_none fun there => by
    rw [Std.ExtTreeMap.contains_iff_mem.mpr there] at new
    cases new
  have waited : Meanwhile {} 3 t u :=
    .single ⟨Std.ExtTreeMap.contains_iff_mem.mp waiting, .revoke 3, rfl, revoked⟩
  have later : Meanwhile {} 3 v w :=
    .single ⟨Std.ExtTreeMap.contains_iff_mem.mp on, .flush 4, rfl, flushed⟩
  refine ⟨s, x, ran, found, ?_, snapshot_copies fresh asked
    (Std.ExtTreeMap.contains_iff_mem.mp accepted) waited finished later answered⟩
  simp only [run, asked, revoked, finished, flushed, answered, Option.bind_some]

/-- A snapshot of a path with a hidden file at or below it. -/
def hiddenCopy (path source : Str) : List Action :=
  [.create 0 path, .flush 1, .done 0, .move 1 .snapshot source ['/', 'b'], .finish 1, .flush 2, .done 1]

/-- The snapshot of a hidden file, or of a directory of hidden files, succeeds and copies nothing. -/
theorem snapshot_copies_nothing :
    [("/.deleted.x".toList, "/.deleted.x".toList), ("/d/.deleted.x".toList, "/d".toList)].map
      (fun (path, source) =>
        (((run (step {}) {} ((hiddenCopy path source).take 4)).map fun s => s.calls.contains 1),
          (run (step {}) {} (hiddenCopy path source)).map fun s => (s.calls.contains 1,
            s.state.files.contains ['/', 'b'] || s.state.files.isDirectory ['/', 'b']))) =
      [(some true, some (false, false)), (some true, some (false, false))] := by
  decide +kernel

end Live

end Gfs.Master
