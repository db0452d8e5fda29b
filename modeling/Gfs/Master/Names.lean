import Gfs.Master.Sections

/-!
# Names

While no hidden name is picked that is a directory or that stands at or above the target of a rename
or a snapshot in progress, the namespace is a tree at every moment and after every prefix of the log,
and what `Rename` and `Snapshot` validated stays valid under their locks.
-/

namespace Gfs.Master
open Lib.Maps Lib.Transition LockTable

/-! ## Records and the namespace -/

namespace MasterState

theorem files_apply {s t : MasterState} (same : s.files = t.files) (record : LogRecord) :
    (s.apply record).files = (t.apply record).files := by
  have replace : ∀ path index handle, (s.applyReplaceChunk path index handle).files =
      (t.applyReplaceChunk path index handle).files := by
    intro path index handle
    unfold applyReplaceChunk
    rw [same]
    split
    · exact same
    · split
      · exact same
      · split
        · exact same
        · rfl
  cases record with
  | create path => exact congrArg (·.insertIfNew path {}) same
  | rename source target =>
      show (s.applyRename source target).files = (t.applyRename source target).files
      unfold applyRename
      rw [same]
      split
      · exact same
      · rfl
  | remove path =>
      show (s.applyRemove path).files = (t.applyRemove path).files
      unfold applyRemove
      rw [same]
      split
      · exact same
      · rfl
  | addChunk path index handle =>
      show (s.applyAddChunk path index handle).files = (t.applyAddChunk path index handle).files
      unfold applyAddChunk
      rw [same]
      split
      · exact same
      · split
        · split
          · exact same
          · exact replace path index handle
        · split
          · exact same
          · rfl
  | replaceChunk path index handle => exact replace path index handle
  | snapshot source target =>
      show (s.applySnapshot source target).files = (t.applySnapshot source target).files
      rw [Namespace.files_applySnapshot, Namespace.files_applySnapshot, same]
  | allocHandle | bumpVersion | dropChunk | bodyNotSet => exact same

theorem files_apply_chunks (s : MasterState) (chunks : ChunkTable) (record : LogRecord) :
    (MasterState.apply { s with chunks } record).files = (s.apply record).files := by
  refine files_apply ?_ record
  rfl

end MasterState

def LogRecord.isNeutral : LogRecord → Bool
  | .allocHandle _ | .bumpVersion .. | .dropChunk _ | .bodyNotSet => true
  | _ => false

namespace MasterState

theorem files_apply_neutral {s : MasterState} {record : LogRecord}
    (neutral : record.isNeutral = true) : (s.apply record).files = s.files := by
  cases record <;> first | rfl | cases neutral

theorem files_replay_neutral {s : MasterState} {records : List LogRecord}
    (neutral : ∀ record ∈ records, record.isNeutral = true) :
    (s.replay records).files = s.files := by
  induction records generalizing s with
  | nil => rfl
  | cons record records ih =>
      refine (ih fun later member => neutral later (List.mem_cons_of_mem _ member)).trans ?_
      exact files_apply_neutral (neutral record List.mem_cons_self)

theorem replay_append {s : MasterState} {records records' : List LogRecord} :
    s.replay (records ++ records') = (s.replay records).replay records' :=
  List.foldl_append

theorem mem_applyReplaceChunk {s : MasterState} {path q : Str} {index : Nat} {handle : Handle} :
    q ∈ (s.applyReplaceChunk path index handle).files ↔ q ∈ s.files := by
  unfold applyReplaceChunk
  split
  · rfl
  · rename_i file found
    split
    · rfl
    · split
      · rfl
      · refine Std.ExtTreeMap.mem_insert.trans ⟨?_, .inr⟩
        rintro (same | there)
        · rw [← Std.LawfulEqOrd.eq_of_compare same]
          exact Namespace.mem_iff.mpr ⟨file, found⟩
        · exact there

theorem mem_applyAddChunk {s : MasterState} {path q : Str} {index : Nat} {handle : Handle} :
    q ∈ (s.applyAddChunk path index handle).files ↔ q ∈ s.files := by
  unfold applyAddChunk
  split
  · rfl
  · rename_i file found
    split
    · split
      · rfl
      · exact mem_applyReplaceChunk
    · split
      · rfl
      · refine Std.ExtTreeMap.mem_insert.trans ⟨?_, .inr⟩
        rintro (same | there)
        · rw [← Std.LawfulEqOrd.eq_of_compare same]
          exact Namespace.mem_iff.mpr ⟨file, found⟩
        · exact there

end MasterState

namespace Namespace

structure Tree (files : Namespace) : Prop where
  prefixFree : PrefixFree files
  proper : AllProper files

section
variable {files files' : Namespace} {path source target : Str}

theorem Tree.of_subset (tree : Tree files) (keys : ∀ q ∈ files', q ∈ files) : Tree files' :=
  ⟨tree.prefixFree.of_subset keys, fun q member => tree.proper q (keys q member)⟩

theorem Tree.create (tree : Tree files) (path' : Proper path) (free : Free files path) :
    Tree (files.insertIfNew path {}) := by
  refine ⟨tree.prefixFree.create free, fun q member => ?_⟩
  rcases Std.ExtTreeMap.mem_insertIfNew.mp member with same | old
  · exact Std.LawfulEqOrd.eq_of_compare same ▸ path'
  · exact tree.proper q old

theorem Tree.rename (tree : Tree files) (source' : source ≠ ['/']) (target' : Proper target)
    (free : Free files target) : Tree (files.renameSubtree source target) := by
  refine ⟨tree.prefixFree.rename free source' target',
    tree.proper.graft target' fun q member => ?_⟩
  obtain ⟨file, found⟩ := mem_iff.mp member
  rw [getElem?_rename source' target'.notRoot free] at found
  split at found
  · rename_i below
    exact .inr below
  · split at found
    · cases found
    · exact .inl (mem_iff.mpr ⟨file, found⟩)

theorem Tree.snapshot {s : MasterState} (tree : Tree s.files) (source' : source ≠ ['/'])
    (target' : Proper target) (free : Free s.files target) :
    Tree (s.applySnapshot source target).files := by
  refine ⟨tree.prefixFree.snapshot free source' target',
    tree.proper.graft target' fun q member => ?_⟩
  obtain ⟨file, found⟩ := mem_iff.mp member
  rw [getElem?_snapshot source' target'.notRoot free] at found
  split at found
  · rename_i below
    exact .inr below
  · exact .inl (mem_iff.mpr ⟨file, found⟩)

theorem Validated.of_keys (valid : Validated files source target)
    (keys : ∀ q, q ∈ files' ↔ q ∈ files) : Validated files' source target := by
  refine ⟨valid.properSource, valid.properTarget, valid.outside, ?_, fun q member => ?_⟩
  · obtain ⟨q, member, below⟩ := valid.there
    exact ⟨q, (keys q).mpr member, below⟩
  · exact valid.free q ((keys q).mp member)

end

end Namespace

namespace Live
open Namespace

theorem checkPath_iff {path : Str} :
    checkPath path = true ↔ isValidPath path = true ∧ path ≠ ['/'] := by
  simp [checkPath]

theorem checkPath_proper {path : Str} (valid : checkPath path = true) : Proper path :=
  isValidPath_proper (checkPath_iff.mp valid).1 (checkPath_iff.mp valid).2

/-- A hidden name is picked where nothing stands below it and nothing is about to be put below it. -/
def hiddenFree (s : Live) : Action → Bool
  | .remove _ path unixSeconds =>
      let hidden := s.state.files.freshHiddenName path unixSeconds
      !s.state.files.contains path || isHiddenPath path ||
        !s.state.files.isDirectory hidden && s.calls.toList.all fun entry =>
          match entry.2 with
          | .move m => !isAncestorOrSelf hidden m.target
          | _ => true
  | _ => true

structure Named (s : Live) : Prop where
  locked : ∀ (i j : Nat) task task', i ≠ j → s.calls[i]? = some task → s.calls[j]? = some task' →
    compatible task.locks task'.locks = true
  moves : ∀ (id : Nat) m, s.calls[id]? = some (.move m) →
    Validated s.state.files m.source m.target
  files : s.state.files = (({} : MasterState).replay s.log).files
  tree : ∀ prior, prior <+: s.log → Tree (({} : MasterState).replay prior).files

theorem Named.tree_now {s : Live} (named : Named s) : Tree s.state.files :=
  named.files ▸ named.tree s.log List.prefix_rfl

section
variable {cfg : Config} {s s' : Live} {a : Action} {id : Nat} {path : Str} {m : Move}

theorem isFree_iff {locks : List LockRequest} :
    s.isFree locks = true ↔
      ∀ (id : Nat) task, s.calls[id]? = some task → compatible task.locks locks = true := by
  rw [isFree, List.all_eq_true]
  constructor
  · intro free id task found
    exact free (id, task) (Std.ExtTreeMap.mem_toList_iff_getElem?_eq_some.mpr found)
  · rintro free ⟨id, task⟩ member
    exact free id task (Std.ExtTreeMap.mem_toList_iff_getElem?_eq_some.mp member)

/-! ## Locks -/

theorem locked_of_turn (turn : Turn cfg s s')
    (locked : ∀ (i j : Nat) task task', i ≠ j → s.calls[i]? = some task →
      s.calls[j]? = some task' → compatible task.locks task'.locks = true)
    (i j : Nat) (task task' : Task) (different : i ≠ j) (found : s'.calls[i]? = some task)
    (found' : s'.calls[j]? = some task') : compatible task.locks task'.locks = true := by
  rcases turn.call found with old | ⟨free, _, others⟩ | ⟨before, there, advances, others⟩
  · rcases turn.call found' with old' | ⟨free, _, others⟩ | ⟨before, there, advances, others⟩
    · exact locked i j task task' different old old'
    · exact isFree_iff.mp free i task old
    · rw [advances.locks]
      exact locked i j task before different old there
  · rw [others j (Ne.symm different)] at found'
    rw [compatible_comm]
    exact isFree_iff.mp free j task' found'
  · rw [others j (Ne.symm different)] at found'
    rw [advances.locks]
    exact locked i j before task' different there found'

theorem moves_of_turn (turn : Turn cfg s s') (found : s'.calls[id]? = some (.move m)) :
    (∃ before, s.calls[id]? = some (.move before) ∧ m.source = before.source ∧
      m.target = before.target) ∨
    (s'.state = s.state ∧ checkPath m.source = true ∧ checkPath m.target = true ∧
      isAncestorOrSelf m.source m.target = false ∧
      (s.state.files.contains m.source || s.state.files.isDirectory m.source) = true ∧
      s.isOpen m.target = true) := by
  rcases turn.call found with old | ⟨_, begins, _⟩ | ⟨before, there, advances, _⟩
  · exact .inl ⟨m, old, rfl, rfl⟩
  · cases begins with
    | move source' target' outside there isOpen handles state =>
        exact .inr ⟨state, source', target', outside, there, isOpen⟩
  · cases advances with
    | moving kind source target handles => exact .inl ⟨_, there, source, target⟩

theorem free_of_isOpen (tree : Tree s.state.files) (path' : Proper path)
    (isOpen : s.isOpen path = true) : Free s.state.files path := by
  rw [Live.isOpen, Bool.and_eq_true, Bool.not_eq_true', Bool.not_eq_true'] at isOpen
  exact free_of_checks tree.proper path' isOpen.1 isOpen.2

/-! ## The invariant, section by section -/

theorem Named.next (named : Named s) (turn : Turn cfg s s')
    (keep : ∀ (id : Nat) m m', s.calls[id]? = some (.move m) → s'.calls[id]? = some (.move m') →
      Validated s'.state.files m.source m.target)
    (files : s'.state.files = (({} : MasterState).replay s'.log).files)
    (tree : ∀ prior, prior <+: s'.log → Tree (({} : MasterState).replay prior).files) :
    Named s' := by
  refine ⟨locked_of_turn turn named.locked, fun id m found => ?_, files, tree⟩
  rcases moves_of_turn turn found with ⟨before, there, source, target⟩ |
    ⟨state, source', target', outside, there, isOpen⟩
  · rw [source, target]
    exact keep id before m there found
  · have source' := checkPath_proper source'
    have target' := checkPath_proper target'
    rw [state]
    exact ⟨source', target', outside, (stands_iff source'.notRoot).mp there,
      free_of_isOpen named.tree_now target' isOpen⟩

theorem Named.neutral (named : Named s) (turn : Turn cfg s s') {records : List LogRecord}
    (neutral : ∀ record ∈ records, record.isNeutral = true)
    (files : s'.state.files = s.state.files) (log : s'.log = s.log ++ records) : Named s' := by
  refine named.next turn (fun id m _ found _ => files ▸ named.moves id m found) ?_ ?_
  · rw [files, log, MasterState.replay_append, MasterState.files_replay_neutral neutral, named.files]
  · rw [log]
    intro prior within
    rcases List.prefix_or_prefix_of_prefix within (List.prefix_append s.log records) with
      old | ⟨rest, rfl⟩
    · exact named.tree prior old
    · have part := (List.prefix_append_right_inj s.log).mp within
      rw [MasterState.replay_append, MasterState.files_replay_neutral fun record member =>
        neutral record (part.mem member)]
      exact named.tree s.log List.prefix_rfl

theorem Named.written (named : Named s) (turn : Turn cfg s s') {record : LogRecord}
    (keep : ∀ (id : Nat) m m', s.calls[id]? = some (.move m) → s'.calls[id]? = some (.move m') →
      Validated s'.state.files m.source m.target)
    (files : s'.state.files = (s.state.apply record).files) (log : s'.log = s.log ++ [record])
    (tree : Tree s'.state.files) : Named s' := by
  have replayed : s'.state.files = (({} : MasterState).replay s'.log).files := by
    rw [files, log, MasterState.replay_append]
    exact MasterState.files_apply named.files record
  refine named.next turn keep replayed ?_
  intro prior within
  rw [log] at within
  rcases List.prefix_concat_iff.mp within with rfl | old
  · rw [← log, ← replayed]
    exact tree
  · exact named.tree prior old

theorem Named.apart (named : Named s) (free : s.isFree (normalize (forPath path .write)) = true)
    (path' : Proper path) (found : s.calls[id]? = some (.move m)) :
    Apart path m.source ∧ Apart path m.target := by
  have valid := named.moves id m found
  have free := isFree_iff.mp free id _ found
  rw [compatible_comm] at free
  obtain ⟨source, target⟩ := owns_forPaths valid.properSource.notRoot valid.properTarget.notRoot
  have owns : Owns (normalize (forPath path .write)) path := owns_forPath path'.notRoot
  exact ⟨owns.apart source free path'.nonempty valid.properSource.nonempty,
    owns.apart target free path'.nonempty valid.properTarget.nonempty⟩

theorem Named.apart_moves (named : Named s) {id' : Nat} {m' : Move} (different : id ≠ id')
    (found : s.calls[id]? = some (.move m)) (found' : s.calls[id']? = some (.move m')) :
    (Apart m.source m'.source ∧ Apart m.source m'.target) ∧
      Apart m.target m'.source ∧ Apart m.target m'.target := by
  have valid := named.moves id m found
  have valid' := named.moves id' m' found'
  have free := named.locked id id' _ _ different found found'
  obtain ⟨source, target⟩ := owns_forPaths valid.properSource.notRoot valid.properTarget.notRoot
  obtain ⟨source', target'⟩ :=
    owns_forPaths valid'.properSource.notRoot valid'.properTarget.notRoot
  exact ⟨⟨source.apart source' free valid.properSource.nonempty valid'.properSource.nonempty,
      source.apart target' free valid.properSource.nonempty valid'.properTarget.nonempty⟩,
    target.apart source' free valid.properTarget.nonempty valid'.properSource.nonempty,
    target.apart target' free valid.properTarget.nonempty valid'.properTarget.nonempty⟩

/-- The hidden name is apart from what the moves in progress have locked. -/
theorem Named.apart_hidden (named : Named s)
    (free : s.isFree (normalize (forPath path .write)) = true) (valid : isValidPath path = true)
    (there : path ∈ s.state.files) {unixSeconds : Int}
    (noDirectory :
      s.state.files.isDirectory (s.state.files.freshHiddenName path unixSeconds) = false)
    (found : s.calls[id]? = some (.move m))
    (away : isAncestorOrSelf (s.state.files.freshHiddenName path unixSeconds) m.target = false) :
    Apart (s.state.files.freshHiddenName path unixSeconds) m.source ∧
      Apart (s.state.files.freshHiddenName path unixSeconds) m.target := by
  have tree := named.tree_now
  have path' := tree.proper path there
  have move := named.moves id m found
  obtain ⟨apartSource, apartTarget⟩ := named.apart free path' found
  obtain ⟨hidden', hiddenFree⟩ :=
    free_freshHiddenName tree.prefixFree tree.proper valid there noDirectory
  obtain ⟨later, isHidden⟩ : ∃ later, s.state.files.freshHiddenName path unixSeconds =
    hiddenNameFor path later := hiddenNameIn_eq _ _
  obtain ⟨q, inFiles, below⟩ := move.there
  -- what is above the hidden name is above the path that is removed
  have above : ∀ p, p ≠ [] → Apart path p →
      isAncestorOrSelf p (s.state.files.freshHiddenName path unixSeconds) = true →
      p = s.state.files.freshHiddenName path unixSeconds := by
    intro p nonempty apart inside
    rw [isHidden] at inside ⊢
    rcases isAncestorOrSelf_hiddenNameFor valid path'.notRoot nonempty inside with same | ⟨inPath, _⟩
    · exact same
    · rw [apart.2] at inPath
      cases inPath
  have notSource : isAncestorOrSelf (s.state.files.freshHiddenName path unixSeconds) m.source =
      false := by
    by_contra inside
    have through := isAncestorOrSelf_trans hidden'.nonempty (by simpa using inside) below
    rw [(hiddenFree q inFiles).1] at through
    cases through
  refine ⟨⟨notSource, ?_⟩, ⟨away, ?_⟩⟩
  · by_contra inside
    have same := above m.source move.properSource.nonempty apartSource (by simpa using inside)
    rw [← same, isAncestorOrSelf_self] at notSource
    cases notSource
  · by_contra inside
    have same := above m.target move.properTarget.nonempty apartTarget (by simpa using inside)
    rw [← same, isAncestorOrSelf_self] at away
    cases away

theorem files_recomputeRefcounts (s : MasterState) : s.recomputeRefcounts.files = s.files := by
  have inner : ∀ (handles : List Handle) (s : MasterState),
      (handles.foldl MasterState.countReference s).files = s.files := by
    intro handles
    induction handles with
    | nil => exact fun _ => rfl
    | cons handle handles ih => exact fun s => ih (s.countReference handle)
  have outer : ∀ (entries : List (Str × FileMeta)) (s : MasterState),
      (entries.foldl (fun s entry => entry.2.chunks.foldl MasterState.countReference s) s).files =
        s.files := by
    intro entries
    induction entries with
    | nil => exact fun _ => rfl
    | cons entry entries ih => exact fun s => (ih _).trans (inner entry.2.chunks s)
  exact outer s.files.toList _

theorem Named.renamed (named : Named s) (found : s.calls[id]? = some (.move m)) :
    (s.state.applyRename m.source m.target).files =
      s.state.files.renameSubtree m.source m.target := by
  have valid := named.moves id m found
  have stands := (stands_iff valid.properSource.notRoot).mpr valid.there
  unfold MasterState.applyRename
  rw [if_neg]
  intro none
  rw [Bool.and_eq_true, Bool.not_eq_true', Bool.not_eq_true'] at none
  rw [none.1, none.2] at stands
  cases stands

theorem Named.hidden (named : Named s) {unixSeconds : Int}
    (allowed : hiddenFree s (.remove id path unixSeconds) = true) (valid : checkPath path = true)
    (free : s.isFree (normalize (forPath path .write)) = true) (there : path ∈ s.state.files)
    (shown : isHiddenPath path = false) :
    Proper (s.state.files.freshHiddenName path unixSeconds) ∧
      Free s.state.files (s.state.files.freshHiddenName path unixSeconds) ∧
      ∀ (other : Nat) m, s.calls[other]? = some (.move m) →
        Apart (s.state.files.freshHiddenName path unixSeconds) m.source ∧
          Apart (s.state.files.freshHiddenName path unixSeconds) m.target := by
  obtain ⟨valid, _⟩ := checkPath_iff.mp valid
  have tree := named.tree_now
  have contained := Std.ExtTreeMap.contains_iff_mem.mpr there
  simp only [hiddenFree, contained, shown, Bool.not_true, Bool.false_or, Bool.and_eq_true,
    Bool.not_eq_true'] at allowed
  obtain ⟨noDirectory, away⟩ := allowed
  obtain ⟨hidden', free'⟩ :=
    free_freshHiddenName tree.prefixFree tree.proper valid there noDirectory
  refine ⟨hidden', free', fun other m found => ?_⟩
  have apart : isAncestorOrSelf (s.state.files.freshHiddenName path unixSeconds) m.target =
      false := by
    have one := List.all_eq_true.mp away (other, .move m)
      (Std.ExtTreeMap.mem_toList_iff_getElem?_eq_some.mpr found)
    simpa using one
  exact named.apart_hidden free valid there noDirectory found apart

theorem files_applyRename (t : MasterState) {source target : Str} (there : source ∈ t.files) :
    (t.applyRename source target).files = t.files.renameSubtree source target := by
  unfold MasterState.applyRename
  rw [Std.ExtTreeMap.contains_iff_mem.mpr there]
  rfl

theorem Named.preserved (named : Named s) (allowed : hiddenFree s a = true)
    (wrote : Wrote cfg s a s') (turn : Turn cfg s s') : Named s' := by
  have tree := named.tree_now
  cases wrote with
  | quiet kept leases => exact named.neutral turn (by simp) kept.files kept.log
  | heard kept leases =>
      refine named.neutral turn (fun record member => ?_) kept.files kept.log
      obtain ⟨handle, version, rfl⟩ := kept.chunks.bumps record member
      rfl
  | committed grant found chunks kept =>
    exact named.neutral turn (by simp [LogRecord.isNeutral]) kept.files kept.log
  | allocated call fresh none calls state log =>
      exact named.neutral turn (by simp [LogRecord.isNeutral]) (by rw [state]; rfl) log
  | abandoned call creating calls state log =>
      have none : ∀ record ∈ ([] : List LogRecord), record.isNeutral = true := by simp
      exact named.neutral turn none (by rw [state]; rfl) (by simp [log])
  | dropped state log =>
      refine named.neutral turn ?_ ?_ log
      · intro record member
        obtain ⟨handle, _, rfl⟩ := List.mem_map.mp member
        rfl
      · rw [state, MasterState.files_drops]
  | @created id path _ valid free isOpen state log =>
      have path' := checkPath_proper valid
      have free' := free_of_isOpen tree path' isOpen
      have files : s'.state.files = s.state.files.insertIfNew path {} := by
        rw [state]
        rfl
      refine named.written turn (fun id m m' found _ => ?_) (by rw [state]; rfl) log ?_
      · rw [files]
        refine (named.moves id m found).of_within within_create fun p member => ?_
        obtain rfl := List.mem_singleton.mp member
        exact ⟨path'.nonempty, named.apart free path' found⟩
      · rw [files]
        exact tree.create path' free'
  | @hidden id path unixSeconds _ valid free there shown state log =>
      have path' := tree.proper path there
      obtain ⟨hidden', free', away⟩ := named.hidden allowed valid free there shown
      have files : (s.state.applyRename path
          (s.state.files.freshHiddenName path unixSeconds)).files = _ :=
        files_applyRename s.state there
      refine named.written turn (fun id m m' found _ => ?_) (by rw [state]; rfl) log ?_
      · rw [state, files]
        refine (named.moves id m found).of_within
          (within_rename path'.notRoot hidden'.notRoot free') fun p member => ?_
        rcases List.mem_cons.mp member with rfl | member
        · exact ⟨path'.nonempty, named.apart free path' found⟩
        · obtain rfl := List.mem_singleton.mp member
          exact ⟨hidden'.nonempty, away id m found⟩
      · rw [state, files]
        exact tree.rename path'.notRoot hidden' free'
  | @removed _ path _ free there isRemoval state log =>
      have path' := tree.proper path there
      have files : s'.state.files = s.state.files.erase path := by
        obtain ⟨file, found⟩ := mem_iff.mp there
        rw [state]
        unfold MasterState.applyRemove
        rw [found]
      refine named.written turn (fun id m m' found _ => ?_) (by rw [state]; rfl) log ?_
      · rw [files]
        refine (named.moves id m found).of_within within_erase fun p member => ?_
        obtain rfl := List.mem_singleton.mp member
        exact ⟨path'.nonempty, named.apart free path' found⟩
      · rw [files]
        exact tree.of_subset fun q member => Std.ExtTreeMap.mem_of_mem_erase member
  | @renamed id m _ call kind ready calls state log =>
      have valid := named.moves id m call
      have files : s'.state.files = s.state.files.renameSubtree m.source m.target := by
        rw [state]
        exact named.renamed call
      refine named.written turn (fun id' m' m'' found' still => ?_) (by rw [state]; rfl) log ?_
      · have different : id ≠ id' := by
          rintro rfl
          rw [calls, getElem?_insert, if_pos rfl] at still
          cases still
        obtain ⟨source, target⟩ := named.apart_moves different call found'
        rw [files]
        refine (named.moves id' m' found').of_within (within_rename valid.properSource.notRoot
          valid.properTarget.notRoot valid.free) fun p member => ?_
        rcases List.mem_cons.mp member with rfl | member
        · exact ⟨valid.properSource.nonempty, source⟩
        · obtain rfl := List.mem_singleton.mp member
          exact ⟨valid.properTarget.nonempty, target⟩
      · rw [files]
        exact tree.rename valid.properSource.notRoot valid.properTarget valid.free
  | @snapshotted id m _ call kind ready waited calls state log =>
      have valid := named.moves id m call
      refine named.written turn (fun id' m' m'' found' still => ?_) ?_ log ?_
      · have different : id ≠ id' := by
          rintro rfl
          rw [calls, getElem?_insert, if_pos rfl] at still
          cases still
        obtain ⟨_, target⟩ := named.apart_moves different call found'
        rw [state]
        refine (named.moves id' m' found').of_within (within_snapshot valid.properSource.notRoot
          valid.properTarget.notRoot valid.free) fun p member => ?_
        obtain rfl := List.mem_singleton.mp member
        exact ⟨valid.properTarget.nonempty, target⟩
      · rw [state]
        exact MasterState.files_apply_chunks s.state _ (.snapshot m.source m.target)
      · rw [state]
        exact Tree.snapshot tree valid.properSource.notRoot valid.properTarget valid.free
  | @replaced id ok f old fresh holders seq _ call phase calls state log =>
      have keys : ∀ q, q ∈ s'.state.files ↔ q ∈ s.state.files := by
        intro q
        rw [state]
        exact MasterState.mem_applyReplaceChunk
      refine named.written turn (fun id m m' found _ => ?_) ?_ log ?_
      · exact (named.moves id m found).of_keys keys
      · rw [state]
        exact MasterState.files_apply_chunks s.state _ (.replaceChunk f.path f.index fresh)
      · exact tree.of_subset fun q member => (keys q).mp member
  | @added id ok path index handle seq _ call calls state log =>
      have keys : ∀ q, q ∈ s'.state.files ↔ q ∈ s.state.files := by
        intro q
        rw [state]
        exact MasterState.mem_applyAddChunk
      refine named.written turn (fun id m m' found _ => ?_) ?_ log ?_
      · exact (named.moves id m found).of_keys keys
      · rw [state]
        exact MasterState.files_apply_chunks s.state _ (.addChunk path index handle)
      · exact tree.of_subset fun q member => (keys q).mp member
  | restarted calls state log =>
      refine named.next turn (fun id m m' _ still => ?_) ?_ ?_
      · rw [calls] at still
        simp at still
      · rw [state, files_recomputeRefcounts, log]
      · rw [log]
        exact fun prior within => named.tree prior (within.trans (List.take_prefix _ _))

theorem named_initial (initial : Initial s) : Named s := by
  subst initial
  refine ⟨?_, ?_, rfl, ?_⟩
  · intro i j task task' _ found
    simp at found
  · intro id m found
    simp at found
  · intro prior within
    obtain rfl := List.prefix_nil.mp within
    exact ⟨by intro p member; simp [MasterState.replay] at member,
      by intro p member; simp [MasterState.replay] at member⟩

theorem Named.act (named : Named s) (allowed : hiddenFree s a = true)
    (taken : step cfg s a = some s') : Named s' := by
  have silent : Named { s with answer := none } :=
    ⟨named.locked, named.moves, named.files, named.tree⟩
  obtain ⟨wrote, turn⟩ := act_section taken
  exact silent.preserved allowed wrote turn

theorem named_of_allowed
    (reachable : Reachable (step cfg) Initial (fun s a => hiddenFree s a = true) s) : Named s :=
  reachable.invariant (fun _ => named_initial) fun _ _ _ => Named.act

/-- No file stands above another. -/
theorem prefixFree_of_allowed
    (reachable : Reachable (step cfg) Initial (fun s a => hiddenFree s a = true) s) :
    PrefixFree s.state.files :=
  (named_of_allowed reachable).tree_now.prefixFree

end

def fileA : Str := "/a".toList
def hiddenA : Str := "/.deleted.5.a".toList
def inHiddenA : Str := "/.deleted.5.a/x".toList

def hiddenDirectory : List Action :=
  [.create 0 inHiddenA, .create 1 fileA, .flush 2, .done 0, .done 1, .remove 2 fileA 5]

theorem prefixFree_fails :
    ∃ s, Reachable (step {}) Initial (fun _ _ => True) s ∧ ¬ PrefixFree s.state.files := by
  obtain ⟨s, ran⟩ := Option.isSome_iff_exists.mp
    (by decide +kernel : (run (step {}) {} hiddenDirectory).isSome = true)
  have both : (run (step {}) {} hiddenDirectory).all (fun s =>
      s.state.files.contains hiddenA && s.state.files.contains inHiddenA) = true := by
    decide +kernel
  simp only [ran, Option.all_some, Bool.and_eq_true, Std.ExtTreeMap.contains_iff_mem] at both
  refine ⟨s, reachable_run_true rfl ran, fun prefixFree => ?_⟩
  have same := prefixFree hiddenA both.1 inHiddenA both.2 (by decide +kernel)
  exact absurd same (by decide +kernel)

/-- A removal beside a hidden name that is taken by a file, and one of a hidden name. -/
def removals : List Action :=
  [.create 0 hiddenA, .create 1 fileA, .flush 2, .done 0, .done 1, .remove 2 fileA 5, .flush 3,
    .done 2, .remove 3 hiddenA 6]

theorem prefixFree_removals :
    ∃ s, run (step {}) {} removals = some s ∧ PrefixFree s.state.files := by
  obtain ⟨s, ran⟩ := Option.isSome_iff_exists.mp
    (by decide +kernel : (run (step {}) {} removals).isSome = true)
  exact ⟨s, ran, prefixFree_of_allowed (reachable_run rfl (by decide +kernel) ran)⟩

/-! ## No file is overwritten -/

/-- The section deletes the file for good: `Remove` of a hidden name, or `GcPass`. -/
def Deletes (s : Live) (a : Action) (path : Str) : Prop :=
  (∃ id unixSeconds, a = .remove id path unixSeconds ∧ isHiddenPath path = true) ∨
    ∃ id expired lastSeq, a = .gcRemove id ∧ s.calls[id]? = some (.gc (path :: expired) lastSeq)

def Edits (s : Live) (a : Action) (path : Str) : Prop :=
  (∃ id ok index phase, a = .endAdd id ok ∧ s.calls[id]? = some (.add path index phase)) ∨
    ∃ id ok f, a = .endCopy id ok ∧ s.calls[id]? = some (.find f) ∧ f.path = path

structure Carries (s : Live) (a : Action) (s' : Live) (carry : Str → Str) : Prop where
  injective : ∀ p ∈ s.state.files, ∀ q ∈ s.state.files, carry p = carry q → p = q
  kept : ∀ (p : Str) file, s.state.files[p]? = some file → ¬ Deletes s a p →
    ∃ file', s'.state.files[carry p]? = some file' ∧ (¬ Edits s a p → file' = file)

section
variable {cfg : Config} {s s' : Live} {a : Action} {source target : Str}

theorem carries_id (files : ∀ (p : Str) file, s.state.files[p]? = some file → ¬ Deletes s a p →
    ∃ file', s'.state.files[p]? = some file' ∧ (¬ Edits s a p → file' = file)) :
    Carries s a s' fun p => p :=
  ⟨fun _ _ _ _ same => same, files⟩

def renamePath (source target path : Str) : Str :=
  if isAncestorOrSelf source path = true then rebase source target path else path

theorem carries_rename (source' : source ≠ ['/']) (target' : target ≠ ['/'])
    (free : Free s.state.files target)
    (files : s'.state.files = s.state.files.renameSubtree source target) :
    Carries s a s' (renamePath source target) := by
  have elsewhere : ∀ q ∈ s.state.files, ∀ p, rebase source target p ≠ q := by
    rintro _ member p rfl
    have apart := (free _ member).1
    rw [isAncestorOrSelf_rebase] at apart
    cases apart
  constructor
  · intro p inP q inQ same
    unfold renamePath at same
    split at same
    · rename_i belowP
      split at same
      · rename_i belowQ
        exact rebase_injective source' target' belowP belowQ same
      · exact absurd same (elsewhere q inQ p)
    · split at same
      · exact absurd same.symm (elsewhere p inP q)
      · exact same
  · intro p file found _
    refine ⟨file, ?_, fun _ => rfl⟩
    rw [files, getElem?_rename source' target' free, renamePath]
    by_cases below : isAncestorOrSelf source p = true
    · rw [if_pos below, if_pos isAncestorOrSelf_rebase, rebase_rebase source' target' below]
      exact found
    · rw [if_neg below, if_neg, if_neg below]
      · exact found
      · rw [(free p (mem_iff.mpr ⟨file, found⟩)).1]
        exact Bool.false_ne_true

theorem getElem?_edited {t t' : MasterState} {path p : Str}
    (keys : ∀ q, q ∈ t'.files ↔ q ∈ t.files)
    (others : path ≠ p → t'.files[p]? = t.files[p]?) {file : FileMeta}
    (found : t.files[p]? = some file) :
    ∃ file', t'.files[p]? = some file' ∧ (path ≠ p → file' = file) := by
  by_cases same : path = p
  · obtain ⟨file', found'⟩ := mem_iff.mp ((keys p).mpr (mem_iff.mpr ⟨file, found⟩))
    exact ⟨file', found', fun different => absurd same different⟩
  · exact ⟨file, (others same).trans found, fun _ => rfl⟩

theorem getElem?_applyReplaceChunk {t : MasterState} {path p : Str} {index : Nat} {handle : Handle}
    (different : path ≠ p) : (t.applyReplaceChunk path index handle).files[p]? = t.files[p]? := by
  unfold MasterState.applyReplaceChunk
  split
  · rfl
  · split
    · rfl
    · split
      · rfl
      · refine getElem?_insert.trans ?_
        rw [if_neg different]

theorem getElem?_applyAddChunk {t : MasterState} {path p : Str} {index : Nat} {handle : Handle}
    (different : path ≠ p) : (t.applyAddChunk path index handle).files[p]? = t.files[p]? := by
  unfold MasterState.applyAddChunk
  split
  · rfl
  · split
    · split
      · rfl
      · exact getElem?_applyReplaceChunk different
    · split
      · rfl
      · refine getElem?_insert.trans ?_
        rw [if_neg different]

theorem Named.carries (named : Named s) (allowed : hiddenFree s a = true)
    (wrote : Wrote cfg s a s') (running : ∀ kept, a ≠ .restart kept) :
    ∃ carry, Carries s a s' carry := by
  have tree := named.tree_now
  have same : s'.state.files = s.state.files → ∃ carry, Carries s a s' carry := fun files =>
    ⟨_, carries_id fun p file found _ => ⟨file, files ▸ found, fun _ => rfl⟩⟩
  cases wrote with
  | quiet kept leases => exact same kept.files
  | heard kept leases => exact same kept.files
  | committed grant found chunks kept => exact same kept.files
  | allocated call fresh none calls state log => exact same (by rw [state]; rfl)
  | abandoned call creating calls state log => exact same (by rw [state]; rfl)
  | dropped state log => exact same (by rw [state, MasterState.files_drops])
  | @created id path _ valid free isOpen state log =>
      refine ⟨_, carries_id fun p file found _ => ⟨file, ?_, fun _ => rfl⟩⟩
      have files : s'.state.files = s.state.files.insertIfNew path {} := by
        rw [state]
        rfl
      rw [files, Std.ExtTreeMap.getElem?_insertIfNew, if_neg, found]
      rintro ⟨same, absent⟩
      exact absent (Std.LawfulEqOrd.eq_of_compare same ▸ mem_iff.mpr ⟨file, found⟩)
  | @hidden id path unixSeconds _ valid free there shown state log =>
      obtain ⟨hidden', free', _⟩ := named.hidden allowed valid free there shown
      refine ⟨_, carries_rename (tree.proper path there).notRoot hidden'.notRoot free' ?_⟩
      rw [state, files_applyRename s.state there]
  | @removed _ path _ free there isRemoval state log =>
      refine ⟨_, carries_id fun p file found kept => ⟨file, ?_, fun _ => rfl⟩⟩
      have different : path ≠ p := by
        rintro rfl
        exact kept isRemoval
      obtain ⟨file', found'⟩ := mem_iff.mp there
      rw [state]
      unfold MasterState.applyRemove
      rw [found']
      refine getElem?_erase.trans ?_
      rw [if_neg different, found]
  | @renamed id m _ call kind ready calls state log =>
      have valid := named.moves id m call
      refine ⟨_, carries_rename valid.properSource.notRoot valid.properTarget.notRoot valid.free ?_⟩
      rw [state]
      exact named.renamed call
  | @snapshotted id m _ call kind ready waited calls state log =>
      have valid := named.moves id m call
      refine ⟨_, carries_id fun p file found _ => ⟨file, ?_, fun _ => rfl⟩⟩
      have files : s'.state.files = (s.state.applySnapshot m.source m.target).files := by
        rw [state]
        exact MasterState.files_apply_chunks s.state _ (.snapshot m.source m.target)
      rw [files, getElem?_snapshot valid.properSource.notRoot valid.properTarget.notRoot valid.free,
        if_neg]
      · exact found
      · rw [(valid.free p (mem_iff.mpr ⟨file, found⟩)).1]
        exact Bool.false_ne_true
  | @replaced id ok f old fresh holders seq _ call phase calls state log =>
      refine ⟨_, carries_id fun p file found _ => ?_⟩
      have found : (s.located fresh ok).files[p]? = some file := found
      rw [state]
      obtain ⟨file', found', unchanged⟩ := getElem?_edited
        (fun q => MasterState.mem_applyReplaceChunk) getElem?_applyReplaceChunk found
      refine ⟨file', found', fun untouched => unchanged fun same => ?_⟩
      exact untouched (.inr ⟨id, ok, f, rfl, call, same⟩)
  | @added id ok path index handle seq _ call calls state log =>
      refine ⟨_, carries_id fun p file found _ => ?_⟩
      have found : (s.located handle ok).files[p]? = some file := found
      rw [state]
      obtain ⟨file', found', unchanged⟩ := getElem?_edited
        (fun q => MasterState.mem_applyAddChunk) getElem?_applyAddChunk found
      refine ⟨file', found', fun untouched => unchanged fun same => ?_⟩
      exact untouched (.inl ⟨id, ok, index, _, rfl, same ▸ call⟩)
  | restarted calls state log => exact absurd rfl (running _)

/-- What a rename or a snapshot in progress has validated still holds, so no section overwrites a
file or makes one that has no name. -/
theorem validated_of_allowed
    (reachable : Reachable (step cfg) Initial (fun s a => hiddenFree s a = true) s) :
    (∀ (id : Nat) m, s.calls[id]? = some (.move m) →
      Validated s.state.files m.source m.target) ∧
    ∀ a s', hiddenFree s a = true → step cfg s a = some s' → (∀ kept, a ≠ .restart kept) →
      ∃ carry, Carries s a s' carry := by
  have named := named_of_allowed reachable
  refine ⟨named.moves, fun a s' allowed taken running => ?_⟩
  have silent : Named { s with answer := none } :=
    ⟨named.locked, named.moves, named.files, named.tree⟩
  obtain ⟨carry, carries⟩ := silent.carries allowed (act_section taken).1 running
  exact ⟨carry, carries.injective, carries.kept⟩

end

def fileS : Str := "/s".toList

def serverP : ServerId := "p".toList

/-- `/a` with a chunk is removed to the name that a rename has validated as free. -/
def lateTarget : List Action :=
  [.create 0 fileS, .create 1 fileA, .flush 2, .done 0, .done 1, .addChunk 2 fileA 0, .alloc 2,
    .touch 3 serverP, .flush 3, .endAdd 2 [serverP], .flush 4, .done 2,
    .move 4 .rename fileS hiddenA, .remove 5 fileA 5]

/-- The target has become a file; the rename overwrites it, and its chunk is in no file. -/
theorem validated_fails :
    ∃ s s' m, Reachable (step {}) Initial (fun _ _ => True) s ∧ s.calls[4]? = some (.move m) ∧
      ¬ Validated s.state.files m.source m.target ∧ step {} s (.finish 4) = some s' ∧
      s.state.files[hiddenA]? = some ⟨[1]⟩ ∧ s'.state.files.toList = [(hiddenA, ⟨[]⟩)] := by
  obtain ⟨s, ran⟩ := Option.isSome_iff_exists.mp
    (by decide +kernel : (run (step {}) {} lateTarget).isSome = true)
  have validated : (run (step {}) {} lateTarget).all (fun s => (s.calls[4]?).any fun task =>
      match task with
      | .move m => m.target = hiddenA
      | _ => false) = true := by
    decide +kernel
  have taken : (run (step {}) {} lateTarget).all (fun s => s.state.files[hiddenA]? = some ⟨[1]⟩ &&
      (step {} s (.finish 4)).any fun s' => s'.state.files.toList = [(hiddenA, ⟨[]⟩)]) = true := by
    decide +kernel
  simp only [ran, Option.all_some, Bool.and_eq_true, decide_eq_true_eq, Option.any_eq_true]
    at validated taken
  obtain ⟨task, call, target⟩ := validated
  obtain ⟨file, s', finished, files⟩ := taken
  cases task with
  | move m =>
      refine ⟨s, s', m, reachable_run_true rfl ran, call, fun valid => ?_, finished, file, files⟩
      have free := valid.free hiddenA (mem_iff.mpr ⟨_, file⟩)
      rw [of_decide_eq_true target] at free
      exact absurd free.1 (by rw [isAncestorOrSelf_self]; exact Bool.true_eq_false_eq_False.elim)
  | _ => cases target

/-- A rename with its locks held while another file is removed. -/
def apartRename : List Action :=
  [.create 0 fileS, .create 1 fileA, .flush 2, .done 0, .done 1,
    .move 2 .rename fileS "/t".toList, .remove 3 fileA 5]

theorem validated_apart :
    ∃ s, run (step {}) {} apartRename = some s ∧
      ∀ (id : Nat) m, s.calls[id]? = some (.move m) → Validated s.state.files m.source m.target := by
  obtain ⟨s, ran⟩ := Option.isSome_iff_exists.mp
    (by decide +kernel : (run (step {}) {} apartRename).isSome = true)
  exact ⟨s, ran, (validated_of_allowed (reachable_run rfl (by decide +kernel) ran)).1⟩

end Live

end Gfs.Master
