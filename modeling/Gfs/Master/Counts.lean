import Gfs.Master.Names

/-!
# Reference counts over whole runs

Under the condition on hidden names the table counts the references exactly at every moment and after
every restart. What makes the counts right after a restart is that every prefix of the log can be
recovered (`Fits`), which is carried along with what the whole log replays to (`Mirrors`).
-/

namespace Gfs.Master
open Lib.Maps Lib.Transition LockTable

/-! ## Which chunks a table has -/

namespace ChunkTable

/-- `some true` for a pending chunk, `none` for one that the table does not have. -/
def standing (chunks : ChunkTable) (handle : Handle) : Option Bool :=
  chunks[handle]?.map (·.pending)

section
variable {chunks chunks' : ChunkTable} {handle other : Handle} {records : List LogRecord}

theorem standing_modify {f : ChunkMeta → ChunkMeta} (same : ∀ m, (f m).pending = m.pending) :
    standing (chunks.modify handle f) other = chunks.standing other := by
  rw [standing, getElem?_modify, standing]
  split
  · rw [Option.map_map]
    exact congrArg (Option.map · _) (funext same)
  · rfl

theorem standing_erase :
    standing (chunks.erase handle) other = if handle = other then none else chunks.standing other := by
  rw [standing, getElem?_erase, standing]
  split <;> rfl

theorem standing_dropReference :
    standing (chunks.dropReference handle) other = chunks.standing other :=
  standing_modify fun _ => rfl

theorem standing_tended (tended : Tended chunks chunks' records) :
    chunks'.standing handle = chunks.standing handle := by
  unfold standing
  cases found : chunks[handle]? with
  | none => rw [tended.absent handle found]
  | some m =>
      obtain ⟨m', found', _, pending, _⟩ := tended.present handle m found
      rw [found', Option.map_some, Option.map_some, pending]

/-- What is there is there in both, as pending, at the same version and with no new lease. -/
structure MildAt (m m' : Option ChunkMeta) : Prop where
  absent : m = none → m' = none
  present : ∀ n, m = some n → ∃ n', m' = some n' ∧ n'.pending = n.pending ∧
    n'.version = n.version ∧ Quiet n n'

def Mild (a b : ChunkTable) : Prop := ∀ handle : Handle, MildAt a[handle]? b[handle]?

theorem MildAt.refl {m : Option ChunkMeta} : MildAt m m :=
  ⟨fun absent => absent, fun n found => ⟨n, found, rfl, rfl, .refl⟩⟩

theorem Mild.refl : Mild chunks chunks := fun _ => .refl

theorem Mild.trans {chunks'' : ChunkTable} (first : Mild chunks chunks')
    (second : Mild chunks' chunks'') : Mild chunks chunks'' := by
  refine fun handle => ⟨fun absent => (second handle).absent ((first handle).absent absent),
    fun m found => ?_⟩
  obtain ⟨m', found', pending, version, lease⟩ := (first handle).present m found
  obtain ⟨m'', found'', pending', version', lease'⟩ := (second handle).present m' found'
  exact ⟨m'', found'', pending'.trans pending, version'.trans version, lease.trans lease'⟩

theorem Mild.modify {f : ChunkMeta → ChunkMeta} (pending : ∀ m, (f m).pending = m.pending)
    (version : ∀ m, (f m).version = m.version)
    (lease : ∀ m, Quiet m (f m)) :
    Mild chunks (chunks.modify handle f) := by
  refine fun other => ⟨fun absent => ?_, fun m found => ?_⟩
  · rw [getElem?_modify, absent]
    split <;> rfl
  · rw [getElem?_modify, found]
    split
    · exact ⟨f m, rfl, pending m, version m, lease m⟩
    · exact ⟨m, rfl, rfl, rfl, .refl⟩

theorem Mild.foldl {ε : Type*} {step : ChunkTable → ε → ChunkTable}
    (one : ∀ chunks e, Mild chunks (step chunks e)) (entries : List ε) :
    Mild chunks (entries.foldl step chunks) := by
  induction entries generalizing chunks with
  | nil => exact .refl
  | cons e entries ih => exact (one chunks e).trans ih

theorem mild_addReference : Mild chunks (chunks.addReference handle) :=
  .modify (fun _ => rfl) (fun _ => rfl) fun _ => .of_lease rfl

theorem mild_dropReference : Mild chunks (chunks.dropReference handle) :=
  .modify (fun _ => rfl) (fun _ => rfl) fun _ => .of_lease rfl

theorem Mild.standing (mild : Mild chunks chunks') :
    chunks'.standing handle = chunks.standing handle := by
  unfold ChunkTable.standing
  cases found : chunks[handle]? with
  | none => rw [(mild handle).absent found]
  | some m =>
      obtain ⟨m', found', pending, _⟩ := (mild handle).present m found
      rw [found', Option.map_some, Option.map_some, pending]

theorem standing_eq_some {pending : Bool} :
    chunks.standing handle = some pending ↔ ∃ m, chunks[handle]? = some m ∧ m.pending = pending :=
  Option.map_eq_some_iff

theorem standing_refer {s : MasterState} : (s.refer handle).chunks.standing other =
    if handle = other then some false else s.chunks.standing other := by
  show standing (Std.ExtTreeMap.modify (s.chunks.create handle 1) handle _) other = _
  rw [standing, getElem?_modify, getElem?_create, standing]
  split
  · rfl
  · rfl

end

end ChunkTable

section
variable {chunks : ChunkTable} {handle : Handle}

theorem Tended.modify {f : ChunkMeta → ChunkMeta} (refcount : ∀ m, (f m).refcount = m.refcount)
    (pending : ∀ m, (f m).pending = m.pending) (version : ∀ m, (f m).version = m.version) :
    Tended chunks (chunks.modify handle f) [] := by
  refine ⟨by simp, fun other absent => ?_, fun other m found => ?_⟩
  · rw [getElem?_modify, absent]
    split <;> rfl
  · rw [getElem?_modify, found]
    split
    · exact ⟨f m, rfl, refcount m, pending m, version m⟩
    · exact ⟨m, rfl, rfl, rfl, rfl⟩

theorem Tended.foldl {ε : Type*} {step : ChunkTable → ε → ChunkTable}
    (one : ∀ chunks e, Tended chunks (step chunks e) []) (entries : List ε) :
    Tended chunks (entries.foldl step chunks) [] := by
  induction entries generalizing chunks with
  | nil => exact .refl
  | cons e entries ih => exact (one chunks e).trans ih

theorem addLocations_tended {ok : List ServerId} {t : TimePoint} :
    Tended chunks (Live.addLocations chunks handle ok t) [] :=
  Tended.foldl (fun _ server => Tended.modify (f := (·.addLocation server t)) (fun _ => rfl)
    (fun _ => rfl) fun _ => rfl) ok

theorem resetInvalid_tended {cfg : Config} {now : TimePoint} {handles : List Handle} :
    Tended chunks (handles.foldl (Live.resetInvalid cfg now) chunks) [] := by
  refine Tended.foldl (fun _ _ => Tended.modify (fun m => ?_) (fun m => ?_) fun m => ?_) handles <;>
    split <;> rfl

end

theorem Tallies.tended {chunks chunks' : ChunkTable} {counts : Handle → Nat}
    {records : List LogRecord} (tended : Tended chunks chunks' records)
    (tallies : Tallies chunks counts) : Tallies chunks' counts := by
  constructor
  · intro handle m' found'
    cases found : chunks[handle]? with
    | none => exact nomatch (tended.absent handle found).symm.trans found'
    | some m =>
        obtain ⟨m'', found'', refcount, _⟩ := tended.present handle m found
        obtain rfl := Option.some.inj (found''.symm.trans found')
        exact refcount.trans (tallies.exact handle m found)
  · intro handle positive
    obtain ⟨m, found, shown⟩ := tallies.backed handle positive
    obtain ⟨m', found', _, pending, _⟩ := tended.present handle m found
    exact ⟨m', found', pending.trans shown⟩

theorem Tallies.hide {chunks : ChunkTable} {counts : Handle → Nat} {handle : Handle}
    (tallies : Tallies chunks counts) (zero : counts handle = 0) :
    Tallies (chunks.modify handle fun m => { m with pending := true }) counts := by
  constructor
  · intro other m found
    rw [getElem?_modify] at found
    split at found
    · obtain ⟨before, there, rfl⟩ := Option.map_eq_some_iff.mp found
      exact tallies.exact other before there
    · exact tallies.exact other m found
  · intro other positive
    rw [getElem?_modify, if_neg]
    · exact tallies.backed other positive
    · rintro rfl
      exact Nat.ne_of_gt positive zero

/-! ## The live state and the replayed one -/

/-- The replayed state has just the chunks that are not pending. -/
structure Mirrors (s t : MasterState) : Prop where
  files : s.files = t.files
  nextHandle : s.nextHandle = t.nextHandle
  chunks : ∀ handle, t.chunks.standing handle = (s.chunks.standing handle).filter (!·)

namespace Mirrors
open ChunkTable
variable {s t : MasterState}

theorem refer (mirrors : Mirrors s t) (handle : Handle) :
    Mirrors (s.refer handle) (t.refer handle) := by
  refine ⟨mirrors.files, ?_, fun other => ?_⟩
  · show max s.nextHandle _ = max t.nextHandle _
    rw [mirrors.nextHandle]
  · rw [standing_refer, standing_refer, mirrors.chunks]
    split <;> rfl

theorem still (mirrors : Mirrors s t) (files : Namespace) {chunks chunks' : ChunkTable}
    (same : ∀ handle, chunks.standing handle = s.chunks.standing handle)
    (same' : ∀ handle, chunks'.standing handle = t.chunks.standing handle) :
    Mirrors { s with files, chunks } { t with files, chunks := chunks' } :=
  ⟨rfl, mirrors.nextHandle, fun handle =>
    (same' handle).trans ((mirrors.chunks handle).trans (by rw [same]))⟩

theorem replaceChunk (mirrors : Mirrors s t) (path : Str) (index : Nat) (handle : Handle) :
    Mirrors (s.applyReplaceChunk path index handle) (t.applyReplaceChunk path index handle) := by
  unfold MasterState.applyReplaceChunk
  rw [mirrors.files]
  cases t.files[path]? with
  | none => exact mirrors
  | some file =>
      dsimp only
      cases file.chunks[index]? with
      | none => exact mirrors
      | some old =>
          dsimp only
          split
          · exact mirrors
          · exact (mirrors.still _ (fun _ => standing_dropReference)
              fun _ => standing_dropReference).refer handle

theorem addChunk (mirrors : Mirrors s t) (path : Str) (index : Nat) (handle : Handle) :
    Mirrors (s.applyAddChunk path index handle) (t.applyAddChunk path index handle) := by
  have replaced := mirrors.replaceChunk path index handle
  unfold MasterState.applyAddChunk
  rw [mirrors.files]
  cases t.files[path]? with
  | none => exact mirrors
  | some file =>
      dsimp only
      cases file.chunks[index]? with
      | none =>
          dsimp only
          split
          · exact mirrors
          · exact (mirrors.still _ (fun _ => rfl) fun _ => rfl).refer handle
      | some there =>
          dsimp only
          split
          · exact mirrors
          · exact replaced

theorem mild_copyFile {source target : Str} {entry : Str × FileMeta} :
    Mild s.chunks (s.copyFile source target entry).chunks := by
  unfold MasterState.copyFile
  dsimp only
  split
  · exact .refl
  · exact Mild.foldl (fun _ _ => mild_addReference) _

theorem mild_applySnapshot {source target : Str} :
    Mild s.chunks (s.applySnapshot source target).chunks := by
  unfold MasterState.applySnapshot
  generalize s.files.subtree source true = entries
  induction entries generalizing s with
  | nil => exact .refl
  | cons entry entries ih => exact mild_copyFile.trans ih

theorem standing_applySnapshot {source target : Str} {handle : Handle} :
    (s.applySnapshot source target).chunks.standing handle = s.chunks.standing handle :=
  mild_applySnapshot.standing

theorem nextHandle_applySnapshot {source target : Str} :
    (s.applySnapshot source target).nextHandle = s.nextHandle := by
  unfold MasterState.applySnapshot
  generalize s.files.subtree source true = entries
  induction entries generalizing s with
  | nil => rfl
  | cons entry entries ih =>
      refine ih.trans ?_
      unfold MasterState.copyFile
      dsimp only
      split <;> rfl

theorem mild_applyRemove {path : Str} : Mild s.chunks (s.applyRemove path).chunks := by
  unfold MasterState.applyRemove
  split
  · exact .refl
  · exact Mild.foldl (fun _ _ => mild_dropReference) _

theorem standing_applyRemove {path : Str} {handle : Handle} :
    (s.applyRemove path).chunks.standing handle = s.chunks.standing handle :=
  mild_applyRemove.standing

theorem standing_applyBumpVersion {handle other : Handle} {version : Nat} :
    (s.applyBumpVersion handle version).chunks.standing other = s.chunks.standing other :=
  standing_modify fun _ => rfl

theorem chunks_applyRename {source target : Str} :
    (s.applyRename source target).chunks = s.chunks := by
  unfold MasterState.applyRename
  split <;> rfl

theorem nextHandle_applyRename {source target : Str} :
    (s.applyRename source target).nextHandle = s.nextHandle := by
  unfold MasterState.applyRename
  split <;> rfl

theorem nextHandle_applyRemove {path : Str} : (s.applyRemove path).nextHandle = s.nextHandle := by
  unfold MasterState.applyRemove
  split <;> rfl

theorem apply (mirrors : Mirrors s t) (record : LogRecord) :
    Mirrors (s.apply record) (t.apply record) := by
  have files := MasterState.files_apply mirrors.files record
  cases record with
  | create path => exact ⟨files, mirrors.nextHandle, mirrors.chunks⟩
  | rename source target =>
      refine ⟨files, ?_, fun handle => ?_⟩
      · exact nextHandle_applyRename.trans (mirrors.nextHandle.trans nextHandle_applyRename.symm)
      · show (t.applyRename source target).chunks.standing handle =
          ((s.applyRename source target).chunks.standing handle).filter (!·)
        rw [chunks_applyRename, chunks_applyRename]
        exact mirrors.chunks handle
  | remove path =>
      refine ⟨files, ?_, fun handle => ?_⟩
      · exact nextHandle_applyRemove.trans (mirrors.nextHandle.trans nextHandle_applyRemove.symm)
      · exact standing_applyRemove.trans
          ((mirrors.chunks handle).trans (congrArg _ standing_applyRemove.symm))
  | allocHandle handle =>
      refine ⟨files, ?_, mirrors.chunks⟩
      show max s.nextHandle _ = max t.nextHandle _
      rw [mirrors.nextHandle]
  | addChunk path index handle => exact mirrors.addChunk path index handle
  | replaceChunk path index handle => exact mirrors.replaceChunk path index handle
  | bumpVersion handle version =>
      exact ⟨files, mirrors.nextHandle, fun other => standing_applyBumpVersion.trans
        ((mirrors.chunks other).trans (congrArg _ standing_applyBumpVersion.symm))⟩
  | snapshot source target =>
      refine ⟨files, ?_, fun handle => ?_⟩
      · exact nextHandle_applySnapshot.trans
          (mirrors.nextHandle.trans nextHandle_applySnapshot.symm)
      · exact standing_applySnapshot.trans
          ((mirrors.chunks handle).trans (congrArg _ standing_applySnapshot.symm))
  | dropChunk handle =>
      refine ⟨files, mirrors.nextHandle, fun other => ?_⟩
      show (ChunkTable.standing (t.chunks.erase handle) other) =
        (ChunkTable.standing (s.chunks.erase handle) other).filter (!·)
      rw [standing_erase, standing_erase, mirrors.chunks]
      split <;> rfl
  | bodyNotSet => exact mirrors

theorem replay (mirrors : Mirrors s t) (records : List LogRecord) :
    Mirrors (s.replay records) (t.replay records) := by
  induction records generalizing s t with
  | nil => exact mirrors
  | cons record records ih => exact ih (mirrors.apply record)

theorem bumps {records : List LogRecord} (mirrors : Mirrors s t)
    (bumps : ∀ record ∈ records, ∃ handle version, record = .bumpVersion handle version) :
    Mirrors s (t.replay records) := by
  induction records generalizing t with
  | nil => exact mirrors
  | cons record records ih =>
      obtain ⟨handle, version, rfl⟩ := bumps record List.mem_cons_self
      refine ih ⟨mirrors.files, mirrors.nextHandle, fun other => ?_⟩ fun later member =>
        bumps later (List.mem_cons_of_mem _ member)
      exact standing_applyBumpVersion.trans (mirrors.chunks other)

theorem of_same {s' : MasterState} (mirrors : Mirrors s t) (files : s'.files = s.files)
    (nextHandle : s'.nextHandle = s.nextHandle)
    (same : ∀ handle, (s'.chunks.standing handle).filter (!·) =
      (s.chunks.standing handle).filter (!·)) : Mirrors s' t :=
  ⟨files.trans mirrors.files, nextHandle.trans mirrors.nextHandle, fun handle =>
    (mirrors.chunks handle).trans (same handle).symm⟩

theorem replayed (records : List LogRecord) :
    Mirrors (({} : MasterState).replay records) (({} : MasterState).replay records) :=
  replay (s := {}) (t := {}) ⟨rfl, rfl, fun _ => rfl⟩ records

theorem not_pending (mirrors : Mirrors s t) (handle : Handle) :
    t.chunks.standing handle ≠ some true := by
  rw [mirrors.chunks]
  cases s.chunks.standing handle with
  | none => exact nofun
  | some pending => cases pending <;> exact nofun

end Mirrors

/-! ## The section that gives a file its new chunk -/

namespace MasterState
open ChunkTable
variable {s : MasterState} {path : Str} {index : Nat} {handle other : Handle}

theorem nextHandle_refer (below : handle < s.nextHandle) (next : s.nextHandle < 2 ^ 64) :
    (s.refer handle).nextHandle = s.nextHandle := by
  have small : u64 (handle + 1) = handle + 1 := Nat.mod_eq_of_lt (Nat.lt_of_le_of_lt below next)
  show max s.nextHandle (u64 (handle + 1)) = s.nextHandle
  rw [small]
  exact Nat.max_eq_left below

/-- What both functions for a new chunk in a file do to the table. -/
structure Gives (s t : MasterState) (handle : Handle) : Prop where
  nextHandle : handle < s.nextHandle → s.nextHandle < 2 ^ 64 → t.nextHandle = s.nextHandle
  chunk : ∀ other, MildAt s.chunks[other]? t.chunks[other]? ∨
    other = handle ∧ ∃ m, t.chunks[other]? = some m ∧ m.pending = false ∧
      m.version = (s.chunks[other]?.map (·.version)).getD 1

theorem Gives.standing {t : MasterState} (gives : Gives s t handle) (other : Handle) :
    t.chunks.standing other = s.chunks.standing other ∨
      other = handle ∧ t.chunks.standing other = some false := by
  rcases gives.chunk other with mild | ⟨here, m, found, pending, _⟩
  · left
    unfold ChunkTable.standing
    cases there : s.chunks[other]? with
    | none => rw [mild.absent there]
    | some m =>
        obtain ⟨m', found, pending, _⟩ := mild.present m there
        rw [found, Option.map_some, Option.map_some, pending]
  · exact .inr ⟨here, standing_eq_some.mpr ⟨m, found, pending⟩⟩

theorem Gives.refl : Gives s s handle := ⟨fun _ _ => rfl, fun _ => .inl .refl⟩

theorem Gives.refer {files : Namespace} {chunks : ChunkTable} (mild : Mild s.chunks chunks) :
    Gives s (MasterState.refer ⟨files, chunks, s.nextHandle⟩ handle) handle := by
  refine ⟨fun below next => nextHandle_refer below next, fun other => ?_⟩
  have looked : (MasterState.refer ⟨files, chunks, s.nextHandle⟩ handle).chunks[other]? = _ :=
    getElem?_modify.trans (by rw [getElem?_create])
  rw [looked]
  by_cases same : handle = other
  · right
    rw [if_pos same, if_pos same]
    refine ⟨same.symm, _, rfl, rfl, ?_⟩
    cases there : s.chunks[other]? with
    | none =>
        rw [(mild other).absent there]
        rfl
    | some m =>
        obtain ⟨m', found, _, version, _⟩ := (mild other).present m there
        rw [found]
        exact version
  · left
    rw [if_neg same, if_neg same]
    exact mild other

theorem gives_applyReplaceChunk : Gives s (s.applyReplaceChunk path index handle) handle := by
  unfold applyReplaceChunk
  split
  · exact .refl
  · split
    · exact .refl
    · split
      · exact .refl
      · exact Gives.refer mild_dropReference

theorem gives_applyAddChunk : Gives s (s.applyAddChunk path index handle) handle := by
  unfold applyAddChunk
  split
  · exact .refl
  · split
    · split
      · exact .refl
      · exact gives_applyReplaceChunk
    · split
      · exact .refl
      · exact Gives.refer .refl

end MasterState

/-! ## What a restart finds -/

namespace Live

def handleLeft (s : Live) : Action → Bool
  | .alloc _ => decide (s.state.nextHandle + 1 < 2 ^ 64)
  | _ => true

def orderly (s : Live) (a : Action) : Bool := s.hiddenFree a && s.handleLeft a

end Live

/-- Every reference has its chunk, and no chunk that the records drop comes back. -/
structure Fits (s : MasterState) (records : List LogRecord) : Prop where
  backed : ∀ handle, 0 < references s.files handle → s.chunks.standing handle = some false
  below : ∀ handle, s.chunks.standing handle ≠ none → handle < s.nextHandle
  next : s.nextHandle < 2 ^ 64
  dropped : ∀ handle, .dropChunk handle ∈ records →
    s.chunks.standing handle = none ∧ handle < s.nextHandle

namespace Fits
open ChunkTable
variable {s t : MasterState} {records records' : List LogRecord} {handle : Handle}

theorem unreferenced (fits : Fits s records) (hidden : s.chunks.standing handle ≠ some false) :
    references s.files handle = 0 := by
  by_contra some
  exact hidden (fits.backed handle (Nat.pos_of_ne_zero some))

theorem fresh (fits : Fits s records) : s.chunks.standing s.nextHandle = none := by
  by_contra there
  exact Nat.lt_irrefl _ (fits.below _ there)

theorem of_mirrors (fits : Fits s records) (mirrors : Mirrors s t) : Fits t records := by
  have shown : ∀ handle, t.chunks.standing handle ≠ none → s.chunks.standing handle ≠ none := by
    intro handle there none
    rw [mirrors.chunks, none] at there
    exact there rfl
  refine ⟨fun handle positive => ?_, fun handle there => ?_, mirrors.nextHandle ▸ fits.next,
    fun handle member => ?_⟩
  · rw [← mirrors.files] at positive
    rw [mirrors.chunks, fits.backed handle positive]
    rfl
  · rw [← mirrors.nextHandle]
    exact fits.below handle (shown handle there)
  · obtain ⟨none, below⟩ := fits.dropped handle member
    rw [mirrors.chunks, none, ← mirrors.nextHandle]
    exact ⟨rfl, below⟩

theorem still (fits : Fits s records) (counted : t.Counted)
    (same : ∀ handle, t.chunks.standing handle = s.chunks.standing handle)
    (nextHandle : t.nextHandle = s.nextHandle)
    (drops : ∀ handle, .dropChunk handle ∈ records' → .dropChunk handle ∈ records) :
    Fits t records' := by
  refine ⟨fun handle positive => ?_, fun handle there => ?_, nextHandle ▸ fits.next,
    fun handle member => ?_⟩
  · exact standing_eq_some.mpr (counted.backed handle positive)
  · rw [nextHandle]
    exact fits.below handle (same handle ▸ there)
  · rw [same, nextHandle]
    exact fits.dropped handle (drops handle member)

theorem bumps (fits : Fits s records)
    (bumps : ∀ record ∈ records', ∃ handle version, record = .bumpVersion handle version) :
    Fits (s.replay records') (records ++ records') := by
  induction records' generalizing s records with
  | nil => simpa [MasterState.replay] using fits
  | cons record records' ih =>
      obtain ⟨bumped, version, rfl⟩ := bumps record List.mem_cons_self
      have one : Fits (s.applyBumpVersion bumped version)
          (records ++ [.bumpVersion bumped version]) := by
        refine ⟨fun handle positive => ?_, fun handle there => ?_, fits.next, fun handle member => ?_⟩
        · exact Mirrors.standing_applyBumpVersion.trans (fits.backed handle positive)
        · exact fits.below handle (Mirrors.standing_applyBumpVersion ▸ there)
        · rw [Mirrors.standing_applyBumpVersion]
          exact fits.dropped handle (by simpa using member)
      have rest := ih one fun later member => bumps later (List.mem_cons_of_mem _ member)
      rw [List.append_assoc] at rest
      exact rest

theorem drops (fits : Fits s records) {handles : List Handle}
    (unreferenced : ∀ handle ∈ handles, references s.files handle = 0)
    (below : ∀ handle ∈ handles, handle < s.nextHandle) :
    Fits (handles.foldl MasterState.applyDropChunk s) (records ++ handles.map .dropChunk) := by
  induction handles generalizing s records with
  | nil => simpa using fits
  | cons first rest ih =>
      have one : Fits (s.applyDropChunk first) (records ++ [.dropChunk first]) := by
        refine ⟨fun handle positive => ?_, fun handle there => ?_, fits.next,
          fun handle member => ?_⟩
        · have different : first ≠ handle := by
            rintro rfl
            exact Nat.ne_of_gt positive (unreferenced first List.mem_cons_self)
          refine standing_erase.trans ?_
          rw [if_neg different]
          exact fits.backed handle positive
        · refine fits.below handle fun none => there (standing_erase.trans ?_)
          rw [none, ite_self]
        · refine ⟨standing_erase.trans ?_, ?_⟩
          · split
            · rfl
            · rename_i different
              refine (fits.dropped handle ?_).1
              simpa [Ne.symm different] using member
          · rcases List.mem_append.mp member with earlier | now
            · exact (fits.dropped handle earlier).2
            · cases List.mem_singleton.mp now
              exact below first List.mem_cons_self
      have rest := ih one (fun handle member => unreferenced handle (List.mem_cons_of_mem _ member))
        fun handle member => below handle (List.mem_cons_of_mem _ member)
      rw [List.append_assoc] at rest
      exact rest

end Fits

/-! ## The invariant -/

namespace Live
open ChunkTable

structure Accounted (s : Live) : Prop where
  counted : s.state.Counted
  fits : Fits s.state s.log
  mirrors : Mirrors s.state (({} : MasterState).replay s.log)
  creating : ∀ (id : Nat) task handle, s.calls[id]? = some task → task.creating = some handle →
    s.state.chunks.standing handle = some true
  distinct : ∀ (i j : Nat) task task' handle, s.calls[i]? = some task → s.calls[j]? = some task' →
    task.creating = some handle → task'.creating = some handle → i = j
  prefixes : ∀ prior, prior <+: s.log → Fits (({} : MasterState).replay prior) prior

section
variable {cfg : Config} {s s' : Live} {a : Action} {id : Nat} {task task' : Task} {handle : Handle}
  {records : List LogRecord}

theorem creating_of_turn (turn : Turn cfg s s') (found : s'.calls[id]? = some task')
    (creating : task'.creating = some handle) :
    (∃ task, s.calls[id]? = some task ∧ task.creating = some handle) ∨
    (handle = s.state.nextHandle ∧ s'.state = s.allocHandle.state ∧
      ∀ other, other ≠ id → s'.calls[other]? = s.calls[other]?) := by
  rcases turn.call found with old | ⟨_, begins, _⟩ | ⟨before, there, advances, others⟩
  · exact .inl ⟨task', old, creating⟩
  · cases begins <;> cases creating
  · cases advances with
    | moving | finishing | collecting => cases creating
    | adding state =>
        cases creating
        exact .inr ⟨rfl, state, others⟩
    | @finding f f' path index next =>
        cases f'
        dsimp only at path index next
        subst path index
        cases next with
        | allocated phase state =>
            cases creating
            exact .inr ⟨rfl, state, others⟩
        | copy | replaced | _ => cases creating

theorem standing_allocHandle :
    s.allocHandle.state.chunks.standing handle =
      if s.state.nextHandle = handle then some true else s.state.chunks.standing handle := by
  show standing (Std.ExtTreeMap.modify (s.state.chunks.create s.state.nextHandle 1)
    s.state.nextHandle _) handle = _
  rw [standing, getElem?_modify, getElem?_create, standing]
  split <;> rfl

theorem Accounted.next (accounted : Accounted s) (turn : Turn cfg s s')
    (creating : ∀ (id : Nat) task task' handle, s.calls[id]? = some task →
      s'.calls[id]? = some task' → task.creating = some handle → task'.creating = some handle →
      s'.state.chunks.standing handle = some true)
    (log : s'.log = s.log ++ records) (counted : s'.state.Counted) (fits : Fits s'.state s'.log)
    (mirrors : Mirrors s'.state (({} : MasterState).replay s'.log))
    (parts : ∀ part, part <+: records → part ≠ [] →
      Fits (({} : MasterState).replay (s.log ++ part)) (s.log ++ part)) : Accounted s' := by
  have fresh : ∀ (i : Nat) task, s.calls[i]? = some task →
      task.creating ≠ some s.state.nextHandle := by
    intro i task found here
    exact nomatch (accounted.creating i task _ found here).symm.trans accounted.fits.fresh
  refine ⟨counted, fits, mirrors, fun i task' handle found here => ?_,
    fun i j task task' handle found found' here here' => ?_, ?_⟩
  · rcases creating_of_turn turn found here with ⟨task, there, before⟩ | ⟨rfl, state, _⟩
    · exact creating i task task' handle there found before here
    · rw [state, standing_allocHandle, if_pos rfl]
  · rcases creating_of_turn turn found here with ⟨old, there, before⟩ | ⟨rfl, _, others⟩
    · rcases creating_of_turn turn found' here' with ⟨old', there', before'⟩ | ⟨rfl, _, others⟩
      · exact accounted.distinct i j old old' handle there there' before before'
      · exact absurd before (fresh i old there)
    · by_contra different
      rw [others j (Ne.symm different)] at found'
      exact fresh j task' found' here'
  · intro prior within
    rw [log] at within
    rcases List.prefix_or_prefix_of_prefix within (List.prefix_append s.log records) with
      old | ⟨rest, rfl⟩
    · exact accounted.prefixes prior old
    · by_cases empty : rest = []
      · subst empty
        rw [List.append_nil]
        exact accounted.prefixes s.log List.prefix_rfl
      · exact parts rest ((List.prefix_append_right_inj s.log).mp within) empty

theorem Accounted.written (accounted : Accounted s) (turn : Turn cfg s s') {record : LogRecord}
    (creating : ∀ (id : Nat) task task' handle, s.calls[id]? = some task →
      s'.calls[id]? = some task' → task.creating = some handle → task'.creating = some handle →
      s'.state.chunks.standing handle = some true)
    (log : s'.log = s.log ++ [record]) (counted : s'.state.Counted) (fits : Fits s'.state s'.log)
    (mirrors : Mirrors s'.state (({} : MasterState).replay s'.log)) : Accounted s' := by
  refine accounted.next turn creating log counted fits mirrors fun part within some => ?_
  have within : part <+: ([] : List LogRecord) ++ [record] := within
  rcases List.prefix_concat_iff.mp within with rfl | none
  · rw [List.nil_append, ← log]
    exact fits.of_mirrors mirrors
  · exact absurd (List.prefix_nil.mp none) some

theorem Accounted.still (accounted : Accounted s) (turn : Turn cfg s s') {record : LogRecord}
    (log : s'.log = s.log ++ [record]) (drops : ∀ handle, record ≠ .dropChunk handle)
    (counted : s'.state.Counted)
    (same : ∀ handle, s'.state.chunks.standing handle = s.state.chunks.standing handle)
    (nextHandle : s'.state.nextHandle = s.state.nextHandle)
    (mirrors : Mirrors s'.state (({} : MasterState).replay s'.log)) : Accounted s' := by
  refine accounted.written turn (fun id task task' handle found _ here _ => ?_) log counted ?_ mirrors
  · rw [same]
    exact accounted.creating id task handle found here
  · refine accounted.fits.still counted same nextHandle fun handle member => ?_
    rw [log] at member
    rcases List.mem_append.mp member with earlier | now
    · exact earlier
    · exact absurd (List.mem_singleton.mp now).symm (drops handle)

theorem Accounted.applied (accounted : Accounted s) {record : LogRecord} {t : MasterState}
    (log : s'.log = s.log ++ [record]) (files : t.files = s.state.files)
    (nextHandle : t.nextHandle = s.state.nextHandle)
    (same : ∀ handle, t.chunks.standing handle = s.state.chunks.standing handle)
    (state : s'.state = t.apply record) :
    Mirrors s'.state (({} : MasterState).replay s'.log) := by
  rw [log, MasterState.replay_append, state]
  exact (accounted.mirrors.of_same files nextHandle fun handle => by rw [same]).apply record

theorem Accounted.kept (accounted : Accounted s) (turn : Turn cfg s s') (kept : Kept s s' records) :
    Accounted s' := by
  have same : ∀ handle, s'.state.chunks.standing handle = s.state.chunks.standing handle :=
    fun _ => standing_tended kept.chunks
  have counted : s'.state.Counted := by
    rw [MasterState.Counted, kept.files]
    exact Tallies.tended kept.chunks accounted.counted
  have notDrops : ∀ handle, LogRecord.dropChunk handle ∈ s'.log → .dropChunk handle ∈ s.log := by
    intro handle member
    rw [kept.log] at member
    rcases List.mem_append.mp member with earlier | now
    · exact earlier
    · obtain ⟨_, _, bump⟩ := kept.chunks.bumps _ now
      cases bump
  refine accounted.next turn (fun id task task' handle found _ here _ => ?_) kept.log counted
    (accounted.fits.still counted same kept.nextHandle notDrops) ?_ fun part within _ => ?_
  · rw [same]
    exact accounted.creating id task handle found here
  · rw [kept.log, MasterState.replay_append]
    exact (accounted.mirrors.of_same kept.files kept.nextHandle fun handle => by rw [same]).bumps
      kept.chunks.bumps
  · rw [MasterState.replay_append]
    exact (accounted.fits.of_mirrors accounted.mirrors).bumps fun record member =>
      kept.chunks.bumps record (within.mem member)

theorem Accounted.given (accounted : Accounted s) (turn : Turn cfg s s') {ok : List ServerId}
    {record : LogRecord} (call : s.calls[id]? = some task) (creating : task.creating = some handle)
    (calls : s'.calls = s.calls.insert id task') (finishing : task'.creating = none)
    (state : s'.state = (s.located handle ok).apply record)
    (log : s'.log = s.log ++ [record]) (drops : ∀ handle, record ≠ .dropChunk handle)
    (counted : s'.state.Counted)
    (gives : MasterState.Gives (s.located handle ok) s'.state handle) : Accounted s' := by
  have same : ∀ other, (s.located handle ok).chunks.standing other =
      s.state.chunks.standing other := fun _ => standing_tended addLocations_tended
  have pending := accounted.creating id task handle call creating
  have below : handle < s.state.nextHandle :=
    accounted.fits.below handle (by rw [pending]; exact nofun)
  have nextHandle : s'.state.nextHandle = s.state.nextHandle :=
    gives.nextHandle below accounted.fits.next
  have mirrors := accounted.applied (t := s.located handle ok) log rfl rfl same state
  refine accounted.written turn (fun other old new h there found here here' => ?_) log counted ?_
    mirrors
  · have different : h ≠ handle := by
      rintro rfl
      obtain rfl := accounted.distinct id other task old h call there creating here
      rw [calls, getElem?_insert, if_pos rfl] at found
      cases found
      rw [finishing] at here'
      cases here'
    rcases gives.standing h with kept | ⟨rfl, _⟩
    · rw [kept, same]
      exact accounted.creating other old h there here
    · exact absurd rfl different
  · refine ⟨fun h positive => ?_, fun h there => ?_, nextHandle ▸ accounted.fits.next,
      fun h member => ?_⟩
    · exact standing_eq_some.mpr (counted.backed h positive)
    · rw [nextHandle]
      rcases gives.standing h with kept | ⟨rfl, _⟩
      · rw [kept, same] at there
        exact accounted.fits.below h there
      · exact below
    · rw [log] at member
      have earlier : .dropChunk h ∈ s.log := by
        rcases List.mem_append.mp member with earlier | now
        · exact earlier
        · exact absurd (List.mem_singleton.mp now).symm (drops h)
      obtain ⟨none, under⟩ := accounted.fits.dropped h earlier
      rw [nextHandle]
      refine ⟨?_, under⟩
      rcases gives.standing h with kept | ⟨rfl, _⟩
      · rw [kept, same, none]
      · rw [none] at pending
        cases pending

theorem counted_located (counted : s.state.Counted) {ok : List ServerId} :
    (s.located handle ok).Counted :=
  Tallies.tended addLocations_tended counted

theorem Accounted.allocated (accounted : Accounted s) (turn : Turn cfg s s')
    (left : s.state.nextHandle + 1 < 2 ^ 64) (state : s'.state = s.allocHandle.state)
    (log : s'.log = s.log ++ [.allocHandle s.state.nextHandle]) : Accounted s' := by
  have fits := accounted.fits
  have nextHandle : s'.state.nextHandle = s.state.nextHandle + 1 := by
    rw [state]
    show max s.state.nextHandle (u64 (s.state.nextHandle + 1)) = _
    rw [u64, Nat.mod_eq_of_lt left]
    exact Nat.max_eq_right (Nat.le_succ _)
  have standing' : ∀ other, s'.state.chunks.standing other =
      if s.state.nextHandle = other then some true else s.state.chunks.standing other := by
    intro other
    rw [state, standing_allocHandle]
  have zero : references s.state.files s.state.nextHandle = 0 :=
    fits.unreferenced (by rw [fits.fresh]; exact nofun)
  have counted : s'.state.Counted := by
    rw [state]
    have created : Tallies (s.state.chunks.create s.state.nextHandle 1)
        (references s.state.files) := Tallies.create accounted.counted fun _ => zero
    exact created.hide zero
  refine accounted.written turn (fun i old new h there found here _ => ?_) log counted ?_ ?_
  · rw [standing']
    split
    · rfl
    · exact accounted.creating i old h there here
  · refine ⟨fun h positive => standing_eq_some.mpr (counted.backed h positive), fun h there => ?_,
      by rw [nextHandle]; exact left, fun h member => ?_⟩
    · rw [nextHandle]
      rw [standing'] at there
      split at there
      · rename_i same
        rw [← same]
        exact Nat.lt_succ_self _
      · exact Nat.lt_succ_of_lt (fits.below h there)
    · obtain ⟨none, under⟩ := fits.dropped h (by simpa [log] using member)
      rw [standing', if_neg (Nat.ne_of_gt under), nextHandle]
      exact ⟨none, Nat.lt_succ_of_lt under⟩
  · rw [log, MasterState.replay_append]
    have next := accounted.mirrors.apply (.allocHandle s.state.nextHandle)
    refine next.of_same (by rw [state]; rfl) (by rw [state]; rfl) fun handle => ?_
    rw [standing']
    split
    · rename_i same
      subst same
      show _ = (s.state.chunks.standing _).filter (!·)
      rw [fits.fresh]
      rfl
    · rfl

theorem Accounted.abandoned (accounted : Accounted s) (turn : Turn cfg s s')
    (call : s.calls[id]? = some task) (creating : task.creating = some handle)
    (calls : s'.calls = s.calls.erase id) (state : s'.state = (s.abandon handle).state)
    (log : s'.log = s.log) : Accounted s' := by
  have pending := accounted.creating id task handle call creating
  have standing' : ∀ other, s'.state.chunks.standing other =
      if handle = other then none else s.state.chunks.standing other := by
    intro other
    rw [state]
    exact standing_erase
  have counted : s'.state.Counted := by
    rw [state]
    exact Tallies.erase accounted.counted
      (accounted.fits.unreferenced (by rw [pending]; exact nofun))
  have log' : s'.log = s.log ++ [] := by rw [log, List.append_nil]
  refine accounted.next turn (fun other old _ h there found here _ => ?_) log' counted ?_ ?_ ?_
  · have different : handle ≠ h := by
      rintro rfl
      obtain rfl := accounted.distinct id other task old handle call there creating here
      rw [calls, getElem?_erase, if_pos rfl] at found
      cases found
    rw [standing', if_neg different]
    exact accounted.creating other old h there here
  · refine ⟨fun h positive => standing_eq_some.mpr (counted.backed h positive), fun h there => ?_,
      by rw [state]; exact accounted.fits.next, fun h member => ?_⟩
    · rw [state]
      refine accounted.fits.below h fun none => there ?_
      rw [standing', none, ite_self]
    · rw [log] at member
      obtain ⟨none, under⟩ := accounted.fits.dropped h member
      rw [standing', none, ite_self, state]
      exact ⟨rfl, under⟩
  · rw [log]
    refine accounted.mirrors.of_same (by rw [state]; rfl) (by rw [state]; rfl) fun h => ?_
    rw [standing']
    split
    · rename_i same
      rw [← same, pending]
      rfl
    · rfl
  · exact fun part within some => absurd (List.prefix_nil.mp within) some

theorem orphans_spec (member : handle ∈ s.orphans) :
    s.state.chunks.standing handle = some false ∧ references s.state.files handle = 0 := by
  obtain ⟨⟨handle, m⟩, kept, rfl⟩ := List.mem_map.mp member
  obtain ⟨inTable, isOrphan⟩ := List.mem_filter.mp kept
  have found := Std.ExtTreeMap.mem_toList_iff_getElem?_eq_some.mp inTable
  simp only [Bool.and_eq_true, Bool.not_eq_true'] at isOrphan
  refine ⟨standing_eq_some.mpr ⟨m, found, isOrphan.1⟩, ?_⟩
  by_contra some
  obtain ⟨path, file, there, inFile⟩ := exists_of_references_pos (Nat.pos_of_ne_zero some)
  have listed : handle ∈ s.state.files.toList.flatMap fun entry => entry.2.chunks :=
    List.mem_flatMap.mpr
      ⟨(path, file), Std.ExtTreeMap.mem_toList_iff_getElem?_eq_some.mpr there, inFile⟩
  have absent := isOrphan.2
  rw [← Bool.not_eq_true, List.contains_iff_mem] at absent
  exact absent listed

theorem counted_drops {t : MasterState} (counted : t.Counted) {handles : List Handle}
    (zero : ∀ handle ∈ handles, references t.files handle = 0) :
    (handles.foldl MasterState.applyDropChunk t).Counted := by
  induction handles generalizing t with
  | nil => exact counted
  | cons first rest ih =>
      have next : (t.applyDropChunk first).Counted :=
        Tallies.erase counted (zero first List.mem_cons_self)
      exact ih next fun handle member => zero handle (List.mem_cons_of_mem _ member)

theorem standing_drops {t : MasterState} {handles : List Handle} :
    (handles.foldl MasterState.applyDropChunk t).chunks.standing handle =
      if handle ∈ handles then none else t.chunks.standing handle := by
  rw [standing, MasterState.getElem?_drops, standing]
  split <;> rfl

theorem Accounted.dropped (accounted : Accounted s) (turn : Turn cfg s s')
    (state : s'.state = s.orphans.foldl MasterState.applyDropChunk s.state)
    (log : s'.log = s.log ++ s.orphans.map LogRecord.dropChunk) : Accounted s' := by
  have replayed : s'.state = s.state.replay (s.orphans.map LogRecord.dropChunk) := by
    rw [state, MasterState.replay, List.foldl_map]
    rfl
  have below : ∀ handle ∈ s.orphans, handle < s.state.nextHandle := fun handle member =>
    accounted.fits.below handle (by rw [(orphans_spec member).1]; exact Option.some_ne_none _)
  have fits : Fits s'.state s'.log := by
    rw [state, log]
    exact accounted.fits.drops (fun handle member => (orphans_spec member).2) below
  have counted : s'.state.Counted := by
    rw [state]
    exact counted_drops accounted.counted fun handle member => (orphans_spec member).2
  refine accounted.next turn (fun i old new h there found here _ => ?_) log counted fits ?_
    fun part within _ => ?_
  · have pending := accounted.creating i old h there here
    have kept : h ∉ s.orphans := by
      intro member
      rw [(orphans_spec member).1] at pending
      cases pending
    rw [state]
    exact (standing_drops.trans (if_neg kept)).trans pending
  · rw [log, MasterState.replay_append, replayed]
    exact accounted.mirrors.replay _
  · obtain ⟨dropped, listed, rfl⟩ : ∃ dropped : List Handle, (∀ handle ∈ dropped,
        handle ∈ s.orphans) ∧ part = dropped.map LogRecord.dropChunk := by
      refine ⟨s.orphans.take part.length, fun _ => List.mem_of_mem_take, ?_⟩
      rw [List.map_take]
      exact List.prefix_iff_eq_take.mp within
    rw [MasterState.replay_append, MasterState.replay, List.foldl_map]
    refine (accounted.fits.of_mirrors accounted.mirrors).drops (fun handle member => ?_)
      fun handle member => ?_
    · rw [← accounted.mirrors.files]
      exact (orphans_spec (listed handle member)).2
    · rw [← accounted.mirrors.nextHandle]
      exact below handle (listed handle member)

/-- What `RecomputeRefcounts` does to a state that fits its records. -/
theorem recompute_fits {t : MasterState} (fits : Fits t records) :
    t.recomputeRefcounts =
      { t with chunks := MasterState.recount t.chunks (references t.files) } := by
  refine MasterState.recomputeRefcounts_eq fun handle positive => ?_
  obtain ⟨m, found, _⟩ := standing_eq_some.mp (fits.backed handle positive)
  have below := fits.below handle (by rw [fits.backed handle positive]; exact nofun)
  refine ⟨Std.ExtTreeMap.mem_iff_isSome_getElem?.mpr (by simp [found]), ?_⟩
  have small : u64 (handle + 1) = handle + 1 := Nat.mod_eq_of_lt (Nat.lt_of_le_of_lt below fits.next)
  rw [small]
  exact below

theorem standing_recount {chunks : ChunkTable} {counts : Handle → Nat} :
    standing (MasterState.recount chunks counts) handle = chunks.standing handle := by
  rw [standing, MasterState.getElem?_recount, Option.map_map]
  rfl

theorem Accounted.restarted (accounted : Accounted s) {kept : Nat} (calls : s'.calls = ∅)
    (state : s'.state = (({} : MasterState).replay (s.log.take kept)).recomputeRefcounts)
    (log : s'.log = s.log.take kept) : Accounted s' := by
  have fits := accounted.prefixes (s.log.take kept) (List.take_prefix _ _)
  rw [recompute_fits fits] at state
  have same : ∀ handle, s'.state.chunks.standing handle =
      (({} : MasterState).replay (s.log.take kept)).chunks.standing handle := by
    intro handle
    rw [state]
    exact standing_recount
  have counted : s'.state.Counted := by
    rw [state]
    constructor
    · intro handle m found
      rw [MasterState.getElem?_recount] at found
      obtain ⟨_, _, rfl⟩ := Option.map_eq_some_iff.mp found
      rfl
    · intro handle positive
      refine standing_eq_some.mp (standing_recount.trans ?_)
      exact fits.backed handle positive
  refine ⟨counted, ?_, ?_, ?_, ?_, ?_⟩
  · exact fits.still counted same (by rw [state]) fun _ member => log ▸ member
  · rw [log]
    refine (Mirrors.replayed _).of_same (by rw [state]) (by rw [state]) fun handle => ?_
    rw [same]
  · intro id task handle found
    rw [calls] at found
    simp at found
  · intro i j task task' handle found
    rw [calls] at found
    simp at found
  · rw [log]
    exact fun prior within => accounted.prefixes prior (within.trans (List.take_prefix _ _))

theorem Accounted.preserved (named : Named s) (accounted : Accounted s)
    (allowed : orderly s a = true) (wrote : Wrote cfg s a s') (turn : Turn cfg s s') :
    Accounted s' := by
  rw [orderly, Bool.and_eq_true] at allowed
  have tree := named.tree_now
  cases wrote with
  | quiet kept leases => exact accounted.kept turn kept
  | heard kept leases => exact accounted.kept turn kept
  | committed grant found chunks kept => exact accounted.kept turn kept
  | allocated call fresh none calls state log =>
      exact accounted.allocated turn (of_decide_eq_true allowed.2) state log
  | abandoned call creating calls state log =>
      exact accounted.abandoned turn call creating calls state log
  | dropped state log => exact accounted.dropped turn state log
  | restarted calls state log => exact accounted.restarted calls state log
  | @created id path _ valid free isOpen state log =>
      refine accounted.still turn log nofun ?_ ?_ ?_ (accounted.applied log rfl rfl (fun _ => rfl) state)
      · rw [state]
        exact accounted.counted.applyCreate
      · exact fun _ => by rw [state]; rfl
      · rw [state]
        rfl
  | @hidden id path unixSeconds _ valid free there shown state log =>
      obtain ⟨hidden', free', _⟩ := named.hidden allowed.1 valid free there shown
      refine accounted.still turn log nofun ?_ (fun _ => ?_) ?_
        (accounted.applied log rfl rfl (fun _ => rfl) state)
      · rw [state]
        exact accounted.counted.applyRename (tree.proper path there).notRoot hidden'.notRoot free'
      · rw [state, Mirrors.chunks_applyRename]
      · rw [state, Mirrors.nextHandle_applyRename]
  | @removed _ path _ free there isRemoval state log =>
      refine accounted.still turn log nofun ?_ (fun _ => ?_) ?_
        (accounted.applied log rfl rfl (fun _ => rfl) state)
      · rw [state]
        exact accounted.counted.applyRemove
      · rw [state, Mirrors.standing_applyRemove]
      · rw [state, Mirrors.nextHandle_applyRemove]
  | @renamed id m _ call kind ready calls state log =>
      have valid := named.moves id m call
      refine accounted.still turn log nofun ?_ (fun _ => ?_) ?_
        (accounted.applied log rfl rfl (fun _ => rfl) state)
      · rw [state]
        exact accounted.counted.applyRename valid.properSource.notRoot valid.properTarget.notRoot
          valid.free
      · rw [state, Mirrors.chunks_applyRename]
      · rw [state, Mirrors.nextHandle_applyRename]
  | @snapshotted id m _ call kind ready waited calls state log =>
      have valid := named.moves id m call
      have same : ∀ handle, standing (m.handles.foldl (resetInvalid cfg s.now) s.state.chunks) handle =
          s.state.chunks.standing handle := fun _ => standing_tended resetInvalid_tended
      have applied : s'.state = MasterState.apply { s.state with
        chunks := m.handles.foldl (resetInvalid cfg s.now) s.state.chunks }
          (.snapshot m.source m.target) := state
      have mirrors : Mirrors s'.state (({} : MasterState).replay s'.log) := by
        refine accounted.applied log ?_ ?_ ?_ applied
        · rfl
        · rfl
        · exact same
      refine accounted.still turn log nofun ?_ (fun handle => ?_) ?_ mirrors
      · rw [state]
        refine MasterState.Counted.applySnapshot ?_ valid.properSource.notRoot
        exact Tallies.tended resetInvalid_tended accounted.counted
      · rw [state, Mirrors.standing_applySnapshot]
        exact same handle
      · rw [state, Mirrors.nextHandle_applySnapshot]
  | @replaced id ok f old fresh holders seq _ call phase calls state log =>
      have applied : s'.state = (s.located fresh ok).apply (.replaceChunk f.path f.index fresh) :=
        state
      refine accounted.given turn call (creating_find phase) calls rfl applied log nofun ?_ ?_
      · rw [state]
        exact (counted_located accounted.counted).applyReplaceChunk
      · rw [state]
        exact MasterState.gives_applyReplaceChunk
  | @added id ok path index handle seq _ call calls state log =>
      have applied : s'.state = (s.located handle ok).apply (.addChunk path index handle) := state
      refine accounted.given turn call rfl calls rfl applied log nofun ?_ ?_
      · rw [state]
        exact (counted_located accounted.counted).applyAddChunk
      · rw [state]
        exact MasterState.gives_applyAddChunk

theorem accounted_initial (initial : Initial s) : Accounted s := by
  subst initial
  have zero : ∀ handle, references (∅ : Namespace) handle = 0 := fun _ =>
    total_eq_zero fun _ _ found => by simp at found
  have fits : Fits {} [] := by
    refine ⟨fun handle positive => ?_, fun handle there => absurd ?_ there, by decide, nofun⟩
    · exact absurd (zero handle) (Nat.ne_of_gt positive)
    · simp [standing]
  refine ⟨⟨?_, ?_⟩, fits, ⟨rfl, rfl, fun _ => rfl⟩, ?_, ?_, ?_⟩
  · intro handle m found
    simp at found
  · intro handle positive
    exact absurd (zero handle) (Nat.ne_of_gt positive)
  · intro id task handle found
    simp at found
  · intro i j task task' handle found
    simp at found
  · intro prior within
    obtain rfl := List.prefix_nil.mp within
    exact fits

theorem accounted_of_allowed
    (reachable : Reachable (step cfg) Initial (fun s a => orderly s a = true) s) :
    Named s ∧ Accounted s := by
  induction reachable with
  | init initial => exact ⟨named_initial initial, accounted_initial initial⟩
  | @next s s' a _ allowed taken ih =>
      obtain ⟨named, accounted⟩ := ih
      have hidden : hiddenFree s a = true := (Bool.and_eq_true_iff.mp allowed).1
      obtain ⟨wrote, turn⟩ := act_section taken
      have silent : Named { s with answer := none } :=
        ⟨named.locked, named.moves, named.files, named.tree⟩
      have still : Accounted { s with answer := none } :=
        ⟨accounted.counted, accounted.fits, accounted.mirrors, accounted.creating,
          accounted.distinct, accounted.prefixes⟩
      exact ⟨named.act hidden taken, still.preserved silent allowed wrote turn⟩

/-- The table counts exactly, and a chunk that was dropped is in no file. -/
theorem counted_of_allowed
    (reachable : Reachable (step cfg) Initial (fun s a => orderly s a = true) s) :
    s.state.Counted ∧
      ∀ handle, .dropChunk handle ∈ s.log → references s.state.files handle = 0 := by
  obtain ⟨_, accounted⟩ := accounted_of_allowed reachable
  refine ⟨accounted.counted, fun handle member => ?_⟩
  refine accounted.fits.unreferenced ?_
  rw [(accounted.fits.dropped handle member).1]
  exact nofun

end

/-- The rename overwrites the file that a removal has moved to its target. -/
theorem counted_fails :
    ∃ s, Reachable (step {}) Initial (fun _ _ => True) s ∧ ¬ s.state.Counted := by
  obtain ⟨s, ran⟩ := Option.isSome_iff_exists.mp
    (by decide +kernel : (run (step {}) {} (lateTarget ++ [.finish 4])).isSome = true)
  have both : (run (step {}) {} (lateTarget ++ [.finish 4])).all (fun s =>
      (s.state.chunks[1]?).any (·.refcount = 1) && references s.state.files 1 = 0) = true := by
    decide +kernel
  simp only [ran, Option.all_some, Bool.and_eq_true, decide_eq_true_eq, Option.any_eq_true] at both
  obtain ⟨⟨m, found, one⟩, zero⟩ := both
  refine ⟨s, reachable_run_true rfl ran, fun counted => ?_⟩
  have exact := counted.exact 1 m found
  rw [zero, one] at exact
  cases exact

/-- A file with a chunk and its snapshot; the file is removed for good and the master restarts. -/
def sharedChunk : List Action :=
  [.create 0 hiddenA, .flush 1, .done 0, .addChunk 1 hiddenA 0, .alloc 1,
    .touch 2 serverP, .flush 2, .endAdd 1 [serverP], .flush 3, .done 1,
    .move 3 .rename hiddenA fileA, .revoke 3, .finish 3, .flush 4, .done 3,
    .move 4 .snapshot fileA fileS, .revoke 4, .finish 4, .flush 5, .done 4, .remove 5 fileA 5,
    .flush 6, .done 5, .remove 6 hiddenA 6, .restart 7]

theorem counted_shared :
    ∃ s, run (step {}) {} sharedChunk = some s ∧ s.state.Counted := by
  obtain ⟨s, ran⟩ := Option.isSome_iff_exists.mp
    (by decide +kernel : (run (step {}) {} sharedChunk).isSome = true)
  exact ⟨s, ran, (counted_of_allowed (reachable_run rfl (by decide +kernel) ran)).1⟩

end Live

end Gfs.Master
