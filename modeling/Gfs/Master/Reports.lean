import Gfs.Master.Live

/-!
# One chunk in a heartbeat

Every pass of `HeartBeat` over the request changes one chunk at a time, so that what the whole call
does to a chunk is a function of its entry, the reported version, and whether it is in the lists.
-/

namespace Gfs.Master
open Lib.Maps

/-- What the section has done about one chunk so far. -/
structure Seen where
  chunk : Option ChunkMeta
  delete : Bool := false
  reported : Bool := false
  regrant : Bool := false
  extended : Bool := false

namespace Seen

def settle (seen : Seen) (verdict : ChunkMeta.Verdict) : Seen :=
  { seen with
    chunk := some verdict.chunk
    delete := seen.delete || verdict.delete
    reported := seen.reported || verdict.reported
    regrant := seen.regrant || verdict.regrant }

def report (cfg : Config) (t : TimePoint) (server : ServerId) (version : Nat) (seen : Seen) :
    Seen :=
  match seen.chunk with
  | none => { seen with delete := true }
  | some m => seen.settle (m.report cfg t server version)

def miss (cfg : Config) (t : TimePoint) (server : ServerId) (seen : Seen) : Seen :=
  if seen.reported then seen
  else
    match seen.chunk with
    | none => seen
    | some m => seen.settle (m.unreported cfg t server)

def corrupt (cfg : Config) (t : TimePoint) (server : ServerId) (seen : Seen) : Seen :=
  match seen.chunk with
  | none => { seen with delete := true }
  | some m => seen.settle (m.reportCorrupt cfg t server)

def extend (cfg : Config) (t : TimePoint) (server : ServerId) (seen : Seen) : Seen :=
  match seen.chunk.bind (·.extendLocked cfg server t) with
  | none => seen
  | some m => { seen with chunk := some m, extended := true }

end Seen

namespace Heard

def see (heard : Heard) (handle : Handle) : Seen where
  chunk := heard.chunks[handle]?
  delete := heard.deleteHandles.contains handle
  reported := heard.reported.contains handle
  regrant := heard.regrants.contains handle
  extended := heard.extended.contains handle

section
variable {cfg : Config} {t : TimePoint} {server : ServerId} {heard : Heard} {handle other : Handle}
  {verdict : ChunkMeta.Verdict}

theorem see_settle : (heard.settle handle verdict).see handle =
    (heard.see handle).settle verdict := by
  have added : ∀ (list : List Handle) (flag : Bool),
      (list ++ if flag then [handle] else []).contains handle = (list.contains handle || flag) := by
    intro list flag
    cases flag <;> simp
  have found : (heard.chunks.insert handle verdict.chunk)[handle]? = some verdict.chunk :=
    getElem?_insert.trans (if_pos rfl)
  simp only [see, settle, Seen.settle, added, found]

theorem see_settle_other (different : handle ≠ other) :
    (heard.settle handle verdict).see other = heard.see other := by
  have added : ∀ (list : List Handle) (flag : Bool),
      (list ++ if flag then [handle] else []).contains other = list.contains other := by
    intro list flag
    cases flag <;> simp [Ne.symm different]
  have kept : (heard.chunks.insert handle verdict.chunk)[other]? = heard.chunks[other]? :=
    getElem?_insert.trans (if_neg different)
  simp only [see, settle, added, kept]

theorem see_delete_other (different : handle ≠ other) :
    ({ heard with deleteHandles := heard.deleteHandles ++ [handle] } : Heard).see other =
      heard.see other := by
  simp [see, Ne.symm different]

theorem see_report {version : Nat} :
    (heard.report cfg t server (handle, version)).see handle =
      (heard.see handle).report cfg t server version := by
  rw [report, Seen.report]
  have here : (heard.see handle).chunk = heard.chunks[handle]? := rfl
  rw [here]
  cases found : heard.chunks[handle]? with
  | none => simp [see, found]
  | some m => exact see_settle

theorem see_report_other {version : Nat} (different : handle ≠ other) :
    (heard.report cfg t server (handle, version)).see other = heard.see other := by
  rw [report]
  split
  · exact see_delete_other different
  · exact see_settle_other different

theorem see_miss : (heard.miss cfg t server handle).see handle =
    (heard.see handle).miss cfg t server := by
  rw [miss, Seen.miss]
  have here : (heard.see handle).chunk = heard.chunks[handle]? := rfl
  have known : (heard.see handle).reported = true ↔ handle ∈ heard.reported :=
    List.contains_iff_mem
  rw [here]
  by_cases reported : handle ∈ heard.reported
  · rw [if_pos reported, if_pos (known.mpr reported)]
  · rw [if_neg reported, if_neg (mt known.mp reported)]
    cases heard.chunks[handle]? with
    | none => rfl
    | some m => exact see_settle

theorem see_miss_other (different : handle ≠ other) :
    (heard.miss cfg t server handle).see other = heard.see other := by
  rw [miss]
  split
  · rfl
  · split
    · rfl
    · exact see_settle_other different

theorem see_corrupt : (heard.corrupt cfg t server handle).see handle =
    (heard.see handle).corrupt cfg t server := by
  rw [corrupt, Seen.corrupt]
  have here : (heard.see handle).chunk = heard.chunks[handle]? := rfl
  rw [here]
  cases found : heard.chunks[handle]? with
  | none => simp [see, found]
  | some m => exact see_settle

theorem see_corrupt_other (different : handle ≠ other) :
    (heard.corrupt cfg t server handle).see other = heard.see other := by
  rw [corrupt]
  split
  · exact see_delete_other different
  · exact see_settle_other different

theorem see_extend : (heard.extend cfg t server handle).see handle =
    (heard.see handle).extend cfg t server := by
  rw [extend, Seen.extend]
  have here : (heard.see handle).chunk = heard.chunks[handle]? := rfl
  rw [here]
  cases heard.chunks[handle]?.bind (·.extendLocked cfg server t) with
  | none => rfl
  | some m => simp [see]

theorem see_extend_other (different : handle ≠ other) :
    (heard.extend cfg t server handle).see other = heard.see other := by
  rw [extend]
  split
  · rfl
  · rename_i m _
    have kept : (heard.chunks.insert handle m)[other]? = heard.chunks[other]? :=
      getElem?_insert.trans (if_neg different)
    simp [see, kept, Ne.symm different]

end

end Heard

namespace HeartBeatRequest

def version (req : HeartBeatRequest) (handle : Handle) : Option Nat :=
  (req.chunks.find? fun entry => entry.1 = handle).map (·.2)

theorem version_eq_some {req : HeartBeatRequest} (distinct : (req.chunks.map (·.1)).Nodup)
    {handle : Handle} {version : Nat} :
    req.version handle = some version ↔ (handle, version) ∈ req.chunks := by
  have only : (handle, version) ∈ req.chunks →
      (req.chunks.filter fun entry => entry.1 = handle) = [(handle, version)] := filter_key distinct
  constructor
  · intro found
    obtain ⟨entry, first, rfl⟩ := Option.map_eq_some_iff.mp found
    have same : entry.1 = handle := by simpa using List.find?_some first
    exact same ▸ List.mem_of_find?_eq_some first
  · intro member
    rw [HeartBeatRequest.version, ← List.head?_filter, only member]
    rfl

theorem filter_chunks {req : HeartBeatRequest} (distinct : (req.chunks.map (·.1)).Nodup)
    (handle : Handle) :
    (req.chunks.filter fun entry => entry.1 = handle) =
      (req.version handle).toList.map fun version => (handle, version) := by
  cases found : req.version handle with
  | none =>
      refine List.filter_eq_nil_iff.mpr ?_
      exact List.find?_eq_none.mp (Option.map_eq_none_iff.mp found)
  | some version => exact filter_key distinct ((version_eq_some distinct).mp found)

end HeartBeatRequest

/-! ## The passes together -/

/-- What the section does about one chunk; `known` is for a location of the chunkserver. -/
def Seen.heartBeat (cfg : Config) (t : TimePoint) (server : ServerId) (version : Option Nat)
    (known corrupt extend : Bool) (seen : Seen) : Seen :=
  let seen := version.elim seen fun version => seen.report cfg t server version
  let seen := if known then seen.miss cfg t server else seen
  let seen := if corrupt then seen.corrupt cfg t server else seen
  if extend then seen.extend cfg t server else seen

section
variable {cfg : Config} {t : TimePoint} {server : ServerId} {chunks : ChunkTable}
  {req : HeartBeatRequest} {handle : Handle} {seen : Seen} {m : ChunkMeta}

theorem removeLocation_twice :
    (m.removeLocation server).removeLocation server = m.removeLocation server := by
  have erased : (m.locations.erase server).erase server = m.locations.erase server := by
    refine Std.ExtTreeMap.ext_getElem? fun {other} => ?_
    rw [getElem?_erase, getElem?_erase]
    split
    · rfl
    · rfl
  rw [ChunkMeta.removeLocation, ChunkMeta.removeLocation, erased]

theorem corrupt_twice :
    (seen.corrupt cfg t server).corrupt cfg t server = seen.corrupt cfg t server := by
  obtain ⟨chunk, delete, reported, regrant, extended⟩ := seen
  cases chunk with
  | none => rfl
  | some m =>
      simp [Seen.corrupt, Seen.settle, ChunkMeta.reportCorrupt, removeLocation_twice]

theorem extend_twice :
    (seen.extend cfg t server).extend cfg t server = seen.extend cfg t server := by
  obtain ⟨chunk, delete, reported, regrant, extended⟩ := seen
  unfold Seen.extend
  cases first : chunk.bind (·.extendLocked cfg server t) with
  | none =>
      dsimp only
      rw [first]
  | some m' =>
      obtain ⟨m, rfl, extends_⟩ := Option.bind_eq_some_iff.mp first
      obtain ⟨l, lease, valid, primary, rfl⟩ := ChunkMeta.extendLocked_eq extends_
      dsimp only [Option.bind_some]
      split
      · rfl
      · rename_i m'' again
        obtain ⟨l', lease', _, _, rfl⟩ := ChunkMeta.extendLocked_eq again
        cases lease'
        rfl

theorem nodup_heldBy : (chunks.heldBy server).Nodup := by
  have part : (chunks.heldBy server).Sublist (chunks.toList.map (·.1)) :=
    List.filter_sublist.map _
  exact part.nodup (nodup_toList chunks)

theorem mem_heldBy : handle ∈ chunks.heldBy server ↔
    ∃ m, chunks[handle]? = some m ∧ m.locations.contains server = true := by
  unfold ChunkTable.heldBy
  rw [List.mem_map]
  constructor
  · rintro ⟨⟨_, m⟩, member, rfl⟩
    obtain ⟨listed, holds⟩ := List.mem_filter.mp member
    exact ⟨m, Std.ExtTreeMap.mem_toList_iff_getElem?_eq_some.mp listed, holds⟩
  · rintro ⟨m, found, holds⟩
    exact ⟨(handle, m), List.mem_filter.mpr
      ⟨Std.ExtTreeMap.mem_toList_iff_getElem?_eq_some.mpr found, holds⟩, rfl⟩

theorem see_foldl {f : Heard → Handle → Heard} {g : Seen → Seen}
    (mine : ∀ heard handle, (f heard handle).see handle = g (heard.see handle))
    (others : ∀ heard handle other, handle ≠ other → (f heard handle).see other = heard.see other)
    {list : List Handle} (again : list.Nodup ∨ ∀ seen, g (g seen) = g seen) (heard : Heard) :
    (list.foldl f heard).see handle =
      if handle ∈ list then g (heard.see handle) else heard.see handle := by
  have view : (list.foldl f heard).see handle = (list.filter fun x => id x = handle).foldl
      (fun seen _ => g seen) (heard.see handle) :=
    foldl_view f id (·.see handle) _ handle (fun heard x same => by cases same; exact mine heard _)
      (fun heard x different => others heard x handle different) list heard
  rw [view]
  by_cases there : handle ∈ list
  · rw [if_pos there]
    rcases again with nodup | again
    · have only : (list.filter fun x => id x = id handle) = [handle] :=
        filter_key (by rw [List.map_id]; exact nodup) there
      exact congrArg (List.foldl _ _) only
    · rw [foldl_idempotent again, if_neg]
      exact List.ne_nil_of_mem (List.mem_filter.mpr ⟨there, by simp⟩)
  · rw [if_neg there, filter_key_eq_nil (by rw [List.map_id]; exact there)]
    rfl

theorem heartBeat_see (distinct : (req.chunks.map (·.1)).Nodup) :
    (chunks.heartBeat cfg t server req).see handle =
      Seen.heartBeat cfg t server (req.version handle) (decide (handle ∈ chunks.heldBy server))
        (decide (handle ∈ req.corrupt)) (decide (handle ∈ req.leaseExtensionRequests))
        { chunk := chunks[handle]? } := by
  have reports : (req.chunks.foldl (Heard.report cfg t server) { chunks }).see handle =
      (req.chunks.filter fun entry => entry.1 = handle).foldl
        (fun seen entry => seen.report cfg t server entry.2) { chunk := chunks[handle]? } :=
    foldl_view (Heard.report cfg t server) (fun entry => entry.1) (fun heard => heard.see handle)
      (fun seen entry => seen.report cfg t server entry.2) handle
      (fun heard entry same => by cases same; exact Heard.see_report)
      (fun heard entry different => Heard.see_report_other different) _ _
  unfold ChunkTable.heartBeat Seen.heartBeat
  dsimp only
  rw [see_foldl (fun _ _ => Heard.see_extend) (fun _ _ _ => Heard.see_extend_other)
    (.inr fun _ => extend_twice),
    see_foldl (fun _ _ => Heard.see_corrupt) (fun _ _ _ => Heard.see_corrupt_other)
    (.inr fun _ => corrupt_twice),
    see_foldl (fun _ _ => Heard.see_miss) (fun _ _ _ => Heard.see_miss_other)
    (.inl nodup_heldBy), reports, HeartBeatRequest.filter_chunks distinct]
  simp only [decide_eq_true_eq]
  cases req.version handle with
  | none => rfl
  | some version => rfl

theorem unreported_delete : (m.unreported cfg t server).delete = false := by
  unfold ChunkMeta.unreported
  split
  · split
    · rfl
    · rfl
  · rfl

theorem seen_none (version : Option Nat) (known corrupt extend : Bool) :
    Seen.heartBeat cfg t server version known corrupt extend { chunk := none } =
      { chunk := none, delete := version.isSome || corrupt } := by
  cases version with
  | none =>
      cases known <;> cases corrupt <;> cases extend <;> rfl
  | some version =>
      cases known <;> cases corrupt <;> cases extend <;> rfl

theorem seen_some (version : Option Nat) (corrupt extend : Bool) :
    let seen := Seen.heartBeat cfg t server version (m.locations.contains server) corrupt extend
      { chunk := some m }
    let one := ChunkMeta.heartBeat cfg t server version corrupt extend (some m)
    seen.chunk = one.chunk ∧ seen.delete = one.delete ∧ seen.regrant = one.regrant ∧
      seen.extended = one.extended := by
  obtain ⟨first, isFirst⟩ : ∃ first : ChunkMeta.Verdict, first =
      version.elim { chunk := m } fun version => m.report cfg t server version := ⟨_, rfl⟩
  obtain ⟨second, isSecond⟩ : ∃ second : ChunkMeta.Verdict, second =
    if m.locations.contains server && !first.reported then first.chunk.unreported cfg t server
    else { chunk := first.chunk } := ⟨_, rfl⟩
  obtain ⟨third, isThird⟩ : ∃ third : ChunkMeta.Verdict, third =
    if corrupt then second.chunk.reportCorrupt cfg t server else { chunk := second.chunk } :=
    ⟨_, rfl⟩
  obtain ⟨one, isOne⟩ : ∃ one : Seen, one =
    ⟨some first.chunk, first.delete, first.reported, first.regrant, false⟩ := ⟨_, rfl⟩
  obtain ⟨two, isTwo⟩ : ∃ two : Seen, two =
    ⟨some second.chunk, first.delete, first.reported || second.reported,
      first.regrant || second.regrant, false⟩ := ⟨_, rfl⟩
  have reports : (version.elim { chunk := some m } fun version =>
      Seen.report cfg t server version { chunk := some m }) = one := by
    subst isOne isFirst
    cases version with
    | none => rfl
    | some version => simp [Seen.report, Seen.settle]
  have misses : (if m.locations.contains server then one.miss cfg t server else one) = two := by
    subst isTwo isOne isSecond
    cases m.locations.contains server with
    | false => simp
    | true =>
        cases reported : first.reported with
        | false => simp [Seen.miss, Seen.settle, unreported_delete]
        | true => simp [Seen.miss]
  obtain ⟨three, isThree⟩ : ∃ three : Seen, three =
    ⟨some third.chunk, first.delete || third.delete,
      first.reported || second.reported || third.reported,
      first.regrant || second.regrant || third.regrant, false⟩ := ⟨_, rfl⟩
  have corrupts : (if corrupt then two.corrupt cfg t server else two) = three := by
    subst isThree isTwo isThird
    cases corrupt with
    | false => simp
    | true => simp [Seen.corrupt, Seen.settle]
  have whole : Seen.heartBeat cfg t server version (m.locations.contains server) corrupt extend
      { chunk := some m } = if extend then three.extend cfg t server else three := by
    rw [← corrupts, ← misses, ← reports]
    rfl
  have other : ChunkMeta.heartBeat cfg t server version corrupt extend (some m) =
      ⟨some ((if extend then third.chunk.extendLocked cfg server t else none).getD third.chunk),
        first.delete || third.delete, first.regrant || second.regrant || third.regrant,
        (if extend then third.chunk.extendLocked cfg server t else none).isSome⟩ := by
    subst isThird isSecond isFirst
    cases version <;> rfl
  rw [whole, other, isThree]
  cases extend with
  | false => exact ⟨rfl, rfl, rfl, rfl⟩
  | true =>
      rw [if_pos rfl, if_pos rfl, Seen.extend]
      cases extends_ : third.chunk.extendLocked cfg server t with
      | none => simp [extends_]
      | some m' => simp [extends_]

/-- The table is the chunks, one by one. -/
theorem heartBeat_chunk (distinct : (req.chunks.map (·.1)).Nodup) :
    let heard := chunks.heartBeat cfg t server req
    let one := ChunkMeta.heartBeat cfg t server (req.version handle) (decide (handle ∈ req.corrupt))
      (decide (handle ∈ req.leaseExtensionRequests)) chunks[handle]?
    heard.chunks[handle]? = one.chunk ∧ heard.deleteHandles.contains handle = one.delete ∧
      heard.regrants.contains handle = one.regrant ∧
      heard.extended.contains handle = one.extended := by
  intro heard one
  have seen : heard.see handle = _ := heartBeat_see distinct
  suffices same : (heard.see handle).chunk = one.chunk ∧ (heard.see handle).delete = one.delete ∧
      (heard.see handle).regrant = one.regrant ∧ (heard.see handle).extended = one.extended from same
  rw [seen]
  show _ = (ChunkMeta.heartBeat cfg t server (req.version handle) _ _ chunks[handle]?).chunk ∧ _ =
    (ChunkMeta.heartBeat cfg t server (req.version handle) _ _ chunks[handle]?).delete ∧ _ =
    (ChunkMeta.heartBeat cfg t server (req.version handle) _ _ chunks[handle]?).regrant ∧ _ =
    (ChunkMeta.heartBeat cfg t server (req.version handle) _ _ chunks[handle]?).extended
  cases found : chunks[handle]? with
  | none =>
      rw [seen_none]
      exact ⟨rfl, rfl, rfl, rfl⟩
  | some m =>
      have known : decide (handle ∈ chunks.heldBy server) = m.locations.contains server := by
        rw [Bool.eq_iff_iff, decide_eq_true_iff, mem_heldBy, found]
        exact ⟨fun ⟨_, same, holds⟩ => by cases same; exact holds, fun holds => ⟨m, rfl, holds⟩⟩
      rw [known]
      exact seen_some _ _ _

end

namespace ChunkMeta

/-- The report is below the version that the branch asks for. -/
def stale (m : ChunkMeta) (version : Nat) : Bool :=
  if m.granting then version + 1 < m.version else version < m.version

def recent (cfg : Config) (t : TimePoint) (server : ServerId) (m : ChunkMeta) : Bool :=
  m.locations[server]?.any fun since => t - since < cfg.heartbeatInterval * 2

section
variable {cfg : Config} {t : TimePoint} {server : ServerId} {m : ChunkMeta} {version : Nat}

theorem removeLocation_spec : (m.removeLocation server).locations.contains server = false ∧
    ∀ other, other ≠ server →
      (m.removeLocation server).locations[other]? = m.locations[other]? := by
  refine ⟨?_, fun other different => getElem?_erase.trans (if_neg (Ne.symm different))⟩
  rw [← Std.ExtTreeMap.isSome_getElem?_eq_contains, removeLocation, getElem?_erase, if_pos rfl]
  rfl

theorem addLocation_spec : (m.addLocation server t).locations.contains server = true ∧
    ∀ other, other ≠ server → (m.addLocation server t).locations[other]? = m.locations[other]? := by
  refine ⟨by simp [addLocation], fun other different => ?_⟩
  rw [addLocation, Std.ExtTreeMap.getElem?_insertIfNew, if_neg]
  rintro ⟨same, _⟩
  exact different (Std.LawfulEqOrd.eq_of_compare same).symm

theorem report_spec : (m.report cfg t server version).chunk.locations.contains server =
      !m.stale version ∧
    (m.report cfg t server version).delete = m.stale version ∧
    (m.report cfg t server version).reported = !m.stale version ∧
    (m.report cfg t server version).chunk.version =
      (if m.granting then m.version else max m.version version) ∧
    ∀ other, other ≠ server →
      (m.report cfg t server version).chunk.locations[other]? = m.locations[other]? := by
  unfold report stale
  cases m.granting with
  | true =>
      rw [if_pos rfl, if_pos rfl, if_pos rfl]
      by_cases below : version + 1 < m.version
      · rw [if_pos below, decide_eq_true below]
        exact ⟨removeLocation_spec.1, rfl, rfl, rfl, removeLocation_spec.2⟩
      · rw [if_neg below, decide_eq_false below]
        exact ⟨addLocation_spec.1, rfl, rfl, rfl, addLocation_spec.2⟩
  | false =>
      rw [if_neg Bool.false_ne_true, if_neg Bool.false_ne_true, if_neg Bool.false_ne_true]
      by_cases below : version < m.version
      · rw [if_pos below, decide_eq_true below, Nat.max_eq_left below.le]
        exact ⟨removeLocation_spec.1, rfl, rfl, rfl, removeLocation_spec.2⟩
      · rw [if_neg below, decide_eq_false below]
        dsimp only
        by_cases newer : m.version < version
        · rw [if_pos newer, Nat.max_eq_right newer.le]
          exact ⟨addLocation_spec.1, rfl, rfl, rfl, addLocation_spec.2⟩
        · rw [if_neg newer, Nat.max_eq_left (Nat.le_of_not_lt newer)]
          exact ⟨addLocation_spec.1, rfl, rfl, rfl, addLocation_spec.2⟩

theorem unreported_spec : (m.unreported cfg t server).chunk.locations.contains server =
      m.recent cfg t server ∧
    (m.unreported cfg t server).chunk.version = m.version ∧
    ∀ other, other ≠ server →
      (m.unreported cfg t server).chunk.locations[other]? = m.locations[other]? := by
  unfold unreported recent
  cases found : m.locations[server]? with
  | none =>
      refine ⟨?_, rfl, fun _ _ => rfl⟩
      rw [← Std.ExtTreeMap.isSome_getElem?_eq_contains, found]
      rfl
  | some since =>
      dsimp only [Option.any_some]
      by_cases late : t - since < cfg.heartbeatInterval * 2
      · rw [if_pos late, decide_eq_true late]
        refine ⟨?_, rfl, fun _ _ => rfl⟩
        rw [← Std.ExtTreeMap.isSome_getElem?_eq_contains, found]
        rfl
      · rw [if_neg late, decide_eq_false late]
        exact ⟨removeLocation_spec.1, rfl, removeLocation_spec.2⟩

theorem recent_absent (absent : m.locations.contains server = false) :
    m.recent cfg t server = false := by
  rw [← Std.ExtTreeMap.isSome_getElem?_eq_contains, Option.isSome_eq_false_iff,
    Option.isNone_iff_eq_none] at absent
  rw [recent, absent]
  rfl

theorem heartBeat_spec (version : Option Nat) (corrupt extend : Bool) :
    ∃ m', (heartBeat cfg t server version corrupt extend (some m)).chunk = some m' ∧
      m'.locations.contains server =
        (!corrupt && version.elim (m.recent cfg t server) fun version => !m.stale version) ∧
      (heartBeat cfg t server version corrupt extend (some m)).delete =
        (corrupt || version.elim false m.stale) ∧
      m'.version = (version.elim m.version fun version =>
        if m.granting then m.version else max m.version version) ∧
      ∀ other, other ≠ server → m'.locations[other]? = m.locations[other]? := by
  obtain ⟨first, isFirst⟩ : ∃ first : Verdict, first = version.elim { chunk := m } fun version =>
      m.report cfg t server version := ⟨_, rfl⟩
  obtain ⟨second, isSecond⟩ : ∃ second : Verdict, second =
    if m.locations.contains server && !first.reported then first.chunk.unreported cfg t server
    else { chunk := first.chunk } := ⟨_, rfl⟩
  obtain ⟨third, isThird⟩ : ∃ third : Verdict, third =
    if corrupt then second.chunk.reportCorrupt cfg t server else { chunk := second.chunk } :=
    ⟨_, rfl⟩
  have whole : heartBeat cfg t server version corrupt extend (some m) =
      ⟨some ((if extend then third.chunk.extendLocked cfg server t else none).getD third.chunk),
        first.delete || third.delete, first.regrant || second.regrant || third.regrant,
        (if extend then third.chunk.extendLocked cfg server t else none).isSome⟩ := by
    subst isThird isSecond isFirst
    cases version <;> rfl
  have one : first.delete = version.elim false m.stale ∧
      first.chunk.version = (version.elim m.version fun version =>
        if m.granting then m.version else max m.version version) ∧
      (∀ other, other ≠ server → first.chunk.locations[other]? = m.locations[other]?) ∧
      (version = none → first = { chunk := m }) ∧
      ∀ v, version = some v → first.chunk.locations.contains server = !m.stale v ∧
        first.reported = !m.stale v := by
    subst isFirst
    cases version with
    | none => exact ⟨rfl, rfl, fun _ _ => rfl, fun _ => rfl, fun _ same => by cases same⟩
    | some version =>
        obtain ⟨holds, delete, reported, raised, others⟩ := report_spec (m := m) (t := t)
        refine ⟨delete, raised, others, (fun same => by cases same), fun v same => ?_⟩
        cases same
        exact ⟨holds, reported⟩
  obtain ⟨delete, raised, others, unreported, reported⟩ := one
  have two : second.chunk.locations.contains server =
        (version.elim (m.recent cfg t server) fun version => !m.stale version) ∧
      second.chunk.version = first.chunk.version ∧
      ∀ other, other ≠ server → second.chunk.locations[other]? = first.chunk.locations[other]? := by
    rw [isSecond]
    obtain ⟨late, same, rest⟩ :
        (first.chunk.unreported cfg t server).chunk.locations.contains server =
          first.chunk.recent cfg t server ∧
        (first.chunk.unreported cfg t server).chunk.version = first.chunk.version ∧
        ∀ other, other ≠ server → (first.chunk.unreported cfg t server).chunk.locations[other]? =
          first.chunk.locations[other]? := unreported_spec
    cases version with
    | none =>
        rw [unreported rfl] at late same rest ⊢
        dsimp only at late same rest ⊢
        cases known : m.locations.contains server with
        | false => exact ⟨known.trans (recent_absent known).symm, rfl, fun _ _ => rfl⟩
        | true => exact ⟨late, same, rest⟩
    | some version =>
        obtain ⟨holds, counted⟩ := reported version rfl
        dsimp only [Option.elim_some]
        split
        · rename_i missed
          have stale : m.stale version = true := by
            rw [counted, Bool.not_not] at missed
            exact (Bool.and_eq_true_iff.mp missed).2
          refine ⟨?_, same, rest⟩
          rw [stale] at holds ⊢
          rw [late, recent_absent holds]
          rfl
        · exact ⟨holds, rfl, fun _ _ => rfl⟩
  have three : third.chunk.locations.contains server =
        (!corrupt && second.chunk.locations.contains server) ∧ third.delete = corrupt ∧
      third.chunk.version = second.chunk.version ∧
      ∀ other, other ≠ server → third.chunk.locations[other]? = second.chunk.locations[other]? := by
    rw [isThird]
    cases corrupt with
    | false => exact ⟨rfl, rfl, rfl, fun _ _ => rfl⟩
    | true => exact ⟨removeLocation_spec.1, rfl, rfl, removeLocation_spec.2⟩
  have last : ∃ lease, (if extend then third.chunk.extendLocked cfg server t else none).getD
      third.chunk = { third.chunk with lease } := by
    cases extends_ : (if extend then third.chunk.extendLocked cfg server t else none) with
    | none => exact ⟨third.chunk.lease, rfl⟩
    | some m' =>
        cases extend with
        | false => cases extends_
        | true =>
            obtain ⟨l, _, _, _, rfl⟩ := extendLocked_eq extends_
            exact ⟨_, rfl⟩
  obtain ⟨lease, last⟩ := last
  rw [whole]
  refine ⟨_, rfl, ?_, ?_, ?_, fun other different => ?_⟩
  · rw [last, three.1, two.1]
  · show (first.delete || third.delete) = _
    rw [delete, three.2.1, Bool.or_comm]
  · rw [last]
    exact three.2.2.1.trans (two.2.1.trans raised)
  · rw [last]
    exact (three.2.2.2 other different).trans
      ((two.2.2 other different).trans (others other different))

end

end ChunkMeta

/-! ## Stale replicas -/

/-- After a report below the version of the chunk the chunkserver is not listed for it, and is told to
delete it. -/
def Heard.Excludes (heard : Heard) (chunks : ChunkTable) (server : ServerId)
    (req : HeartBeatRequest) : Prop :=
  ∀ entry ∈ req.chunks, ∀ m, chunks[entry.1]? = some m → ∃ m', heard.chunks[entry.1]? = some m' ∧
    (m'.locations.contains server = true → m.version ≤ entry.2) ∧
    (entry.2 < m.version →
      m'.locations.contains server = false ∧ entry.1 ∈ heard.deleteHandles)

section
variable {cfg : Config} {t : TimePoint} {server : ServerId} {chunks : ChunkTable}
  {req : HeartBeatRequest} {handle : Handle} {version : Nat} {m : ChunkMeta}

theorem heartBeat_absent (distinct : (req.chunks.map (·.1)).Nodup)
    (absent : chunks[handle]? = none) :
    (chunks.heartBeat cfg t server req).chunks[handle]? = none ∧
      (handle ∈ (chunks.heartBeat cfg t server req).deleteHandles ↔
        (req.version handle).isSome ∨ handle ∈ req.corrupt) := by
  obtain ⟨chunk, delete, _, _⟩ := @heartBeat_chunk cfg t server chunks req handle distinct
  rw [absent] at chunk delete
  refine ⟨chunk, ?_⟩
  rw [← List.contains_iff_mem, delete]
  simp [ChunkMeta.heartBeat]

theorem heartBeat_present (distinct : (req.chunks.map (·.1)).Nodup)
    (found : chunks[handle]? = some m) :
    ∃ m', (chunks.heartBeat cfg t server req).chunks[handle]? = some m' ∧
      (m'.locations.contains server = true ↔ handle ∉ req.corrupt ∧
        (req.version handle).elim (m.recent cfg t server) (fun version => !m.stale version)) ∧
      (handle ∈ (chunks.heartBeat cfg t server req).deleteHandles ↔
        handle ∈ req.corrupt ∨ (req.version handle).elim false m.stale) ∧
      m'.version = ((req.version handle).elim m.version fun version =>
        if m.granting then m.version else max m.version version) ∧
      ∀ other, other ≠ server → m'.locations[other]? = m.locations[other]? := by
  obtain ⟨chunk, delete, _, _⟩ := @heartBeat_chunk cfg t server chunks req handle distinct
  rw [found] at chunk delete
  obtain ⟨m', there, holds, deletes, raised, others⟩ :=
    @ChunkMeta.heartBeat_spec cfg t server m (req.version handle)
      (decide (handle ∈ req.corrupt)) (decide (handle ∈ req.leaseExtensionRequests))
  refine ⟨m', chunk.trans there, ?_, ?_, raised, others⟩
  · rw [holds, Bool.and_eq_true, Bool.not_eq_true', decide_eq_false_iff_not]
  · rw [← List.contains_iff_mem, delete, deletes, Bool.or_eq_true, decide_eq_true_iff]

theorem stale_granting (granting : m.granting = true) (below : version < m.version) :
    m.stale version = true ↔ version + 1 ≠ m.version := by
  rw [ChunkMeta.stale, if_pos granting, decide_eq_true_iff]
  omega

theorem stale_free (free : m.granting = false) : m.stale version = true ↔ version < m.version := by
  rw [ChunkMeta.stale, if_neg (by simp [free]), decide_eq_true_iff]

/-- A stale replica stays exactly where the chunk is being granted and the report is one version
behind. -/
theorem heartBeat_excludes (cfg : Config) (t : TimePoint) (server : ServerId) (chunks : ChunkTable)
    (req : HeartBeatRequest) (distinct : (req.chunks.map (·.1)).Nodup) :
    (chunks.heartBeat cfg t server req).Excludes chunks server req ↔
      ∀ entry ∈ req.chunks, ∀ m, chunks[entry.1]? = some m →
        ¬(m.granting = true ∧ entry.2 + 1 = m.version ∧ entry.1 ∉ req.corrupt) := by
  constructor
  · rintro excludes entry member m found ⟨granting, behind, sound⟩
    have reported : req.version entry.1 = some entry.2 :=
      (HeartBeatRequest.version_eq_some distinct).mpr member
    obtain ⟨m', there, holds, _⟩ := heartBeat_present distinct found
    obtain ⟨_, there', listed, _⟩ := excludes entry member m found
    cases there.symm.trans there'
    have below : entry.2 < m.version := by omega
    have fresh : m.stale entry.2 = false := by
      rw [← Bool.not_eq_true, stale_granting granting below, not_not]
      exact behind
    have still : m'.locations.contains server = true := by
      rw [holds, reported]
      exact ⟨sound, by simp [fresh]⟩
    exact absurd (listed still) (by omega)
  · intro apart entry member m found
    have reported : req.version entry.1 = some entry.2 :=
      (HeartBeatRequest.version_eq_some distinct).mpr member
    obtain ⟨m', there, holds, deletes, _⟩ := heartBeat_present distinct found
    rw [reported] at holds deletes
    have gone : entry.2 < m.version → entry.1 ∉ req.corrupt → m.stale entry.2 = true := by
      intro below sound
      cases granting : m.granting with
      | false => exact (stale_free granting).mpr below
      | true =>
          rw [stale_granting granting below]
          exact fun behind => apart entry member m found ⟨granting, behind, sound⟩
    refine ⟨m', there, fun listed => ?_, fun below => ⟨?_, ?_⟩⟩
    · obtain ⟨sound, fresh⟩ := holds.mp listed
      by_contra below
      have stale : m.stale entry.2 = true := gone (Nat.lt_of_not_le below) sound
      simp [stale] at fresh
    · rw [← Bool.not_eq_true, holds]
      rintro ⟨sound, fresh⟩
      simp [gone below sound] at fresh
    · rw [deletes]
      by_cases sound : entry.1 ∈ req.corrupt
      · exact .inl sound
      · exact .inr (gone below sound)

end

/-- Version 2 of chunk 1 on one chunkserver, while the next version is being granted. -/
def behindGrant : ChunkTable :=
  (∅ : ChunkTable).insert 1
    { version := 2, refcount := 1, granting := true
      locations := (∅ : Std.ExtTreeMap ServerId TimePoint).insert ['a'] 0 }

theorem heartBeat_excludes_corrupt :
    (behindGrant.heartBeat {} 0 ['b'] { chunks := [(1, 1)], corrupt := [1] }).Excludes behindGrant
      ['b'] { chunks := [(1, 1)], corrupt := [1] } :=
  (heartBeat_excludes {} 0 ['b'] behindGrant { chunks := [(1, 1)], corrupt := [1] }
    (by simp)).mpr (by simp)

/-- A chunkserver that has missed a version becomes a location of the chunk. -/
theorem heartBeat_lists_stale :
    ¬(behindGrant.heartBeat {} 0 ['b'] { chunks := [(1, 1)] }).Excludes behindGrant ['b']
      { chunks := [(1, 1)] } := by
  intro excludes
  obtain ⟨m', there, listed, _⟩ := excludes (1, 1) (by simp) _ Std.ExtTreeMap.getElem?_insert_self
  have still : ((behindGrant.heartBeat {} 0 ['b'] { chunks := [(1, 1)] }).chunks[(1 : Handle)]?.map
      fun m => m.locations.contains ['b']) = some true := by decide +kernel
  rw [there] at still
  exact absurd (listed (Option.some.inj still)) (by decide)

/-! ## The rest of the call -/

/-- What a heartbeat without a grant in its way makes of the state. -/
structure Reconciled (server : ServerId) (req : HeartBeatRequest) (before after : MasterState)
    (deleteHandles : List Handle) : Prop where
  held : ∀ handle, handle ∈ after.chunks.heldBy server ↔ ∃ m version,
    before.chunks[handle]? = some m ∧ (handle, version) ∈ req.chunks ∧ m.version ≤ version ∧
      handle ∉ req.corrupt
  deletes : ∀ handle, handle ∈ deleteHandles ↔ handle ∈ req.corrupt ∨ ∃ version,
    (handle, version) ∈ req.chunks ∧ ∀ m, before.chunks[handle]? = some m → version < m.version
  absent : ∀ handle : Handle, before.chunks[handle]? = none → after.chunks[handle]? = none
  versions : ∀ (handle : Handle) m, before.chunks[handle]? = some m →
    ∃ m', after.chunks[handle]? = some m' ∧
      (∀ version, (handle, version) ∈ req.chunks → m'.version = max m.version version) ∧
      (handle ∉ req.chunks.map (·.1) → m'.version = m.version) ∧
      ∀ other, other ≠ server → m'.locations[other]? = m.locations[other]?
  files : after.files = before.files

theorem hear_reconciles (cfg : Config) (s : Live) (id : Nat) (server : ServerId) (t : TimePoint)
    (req : HeartBeatRequest) (call : s.calls[id]? = some (.beat server t))
    (distinct : (req.chunks.map (·.1)).Nodup)
    (free : ∀ (handle : Handle) m, s.state.chunks[handle]? = some m → m.granting = false)
    (old : ∀ (handle : Handle) m since, s.state.chunks[handle]? = some m →
      m.locations[server]? = some since → cfg.heartbeatInterval * 2 ≤ t - since) :
    ∃ s', s.hear cfg id req = some s' ∧
      Reconciled server req s.state s'.state
        (s.state.chunks.heartBeat cfg t server req).deleteHandles := by
  unfold Live.hear
  rw [call]
  refine ⟨_, rfl, ?_⟩
  have late : ∀ (handle : Handle) m, s.state.chunks[handle]? = some m →
      m.recent cfg t server = false := by
    intro handle m found
    rw [ChunkMeta.recent, Option.any_eq_false]
    intro since there
    simpa using old handle m since found there
  have reports : ∀ {handle version}, req.version handle = some version ↔
      (handle, version) ∈ req.chunks := HeartBeatRequest.version_eq_some distinct
  refine ⟨fun handle => ?_, fun handle => ?_,
    fun handle absent => (heartBeat_absent distinct absent).1, fun handle m found => ?_, rfl⟩
  · refine mem_heldBy.trans ?_
    cases found : s.state.chunks[handle]? with
    | none =>
        have gone : (s.state.chunks.heartBeat cfg t server req).chunks[handle]? = none :=
          (heartBeat_absent distinct found).1
        constructor
        · rintro ⟨m', there, _⟩
          cases gone.symm.trans there
        · rintro ⟨m, _, found', _⟩
          cases found'
    | some m =>
        obtain ⟨m', there, holds, _⟩ := heartBeat_present (t := t) distinct found
        constructor
        · rintro ⟨_, there', listed⟩
          cases there.symm.trans there'
          obtain ⟨sound, fresh⟩ := holds.mp listed
          cases reported : req.version handle with
          | none => simp [reported, late handle m found] at fresh
          | some version =>
              simp only [reported, Option.elim_some, Bool.not_eq_true',
                ← Bool.not_eq_true, stale_free (free handle m found)] at fresh
              exact ⟨m, version, rfl, reports.mp reported, Nat.le_of_not_lt fresh, sound⟩
        · rintro ⟨_, version, same, member, recent, sound⟩
          cases same
          refine ⟨m', there, holds.mpr ⟨sound, ?_⟩⟩
          rw [reports.mpr member, Option.elim_some, Bool.not_eq_true', ← Bool.not_eq_true,
            stale_free (free handle m found)]
          exact Nat.not_lt_of_le recent
  · cases found : s.state.chunks[handle]? with
    | none =>
        rw [(heartBeat_absent (t := t) distinct found).2, or_comm, Option.isSome_iff_exists]
        simp [reports]
    | some m =>
        obtain ⟨m', there, _, deletes, _⟩ := heartBeat_present (t := t) distinct found
        rw [deletes]
        refine or_congr_right ?_
        constructor
        · intro stale
          cases reported : req.version handle with
          | none => simp [reported] at stale
          | some version =>
              rw [reported, Option.elim_some, stale_free (free handle m found)] at stale
              exact ⟨version, reports.mp reported, fun m same => by cases same; exact stale⟩
        · rintro ⟨version, member, below⟩
          rw [reports.mpr member, Option.elim_some, stale_free (free handle m found)]
          exact below m rfl
  · obtain ⟨m', there, _, _, raised, others⟩ := heartBeat_present (t := t) distinct found
    refine ⟨m', there, fun version member => ?_, fun missed => ?_, others⟩
    · rw [raised, reports.mpr member]
      simp [free handle m found]
    · have none : req.version handle = none := by
        rw [Option.eq_none_iff_forall_ne_some]
        exact fun version reported => missed (List.mem_map.mpr ⟨_, reports.mp reported, rfl⟩)
      rw [raised, none]
      rfl

def reportedChunk : ChunkMeta :=
  { version := 2, refcount := 1
    locations := (∅ : Std.ExtTreeMap ServerId TimePoint).insert ['b'] 0 }

/-- The heartbeat of a chunkserver with one chunk is being handled. -/
def reporting : Live :=
  { state := { chunks := (∅ : ChunkTable).insert 1 reportedChunk }
    calls := (∅ : Std.ExtTreeMap Nat Task).insert 1 (.beat ['b'] (millis 6000)) }

theorem hear_reconciles_reporting :
    ∃ s', reporting.hear {} 1 { chunks := [(1, 3), (2, 1)] } = some s' ∧
      Reconciled ['b'] { chunks := [(1, 3), (2, 1)] } reporting.state s'.state
        (reporting.state.chunks.heartBeat {} (millis 6000) ['b']
          { chunks := [(1, 3), (2, 1)] }).deleteHandles := by
  have only : ∀ (handle : Handle) m, reporting.state.chunks[handle]? = some m →
      m = reportedChunk := by
    intro handle m found
    rw [reporting, getElem?_insert] at found
    split at found
    · exact (Option.some.inj found).symm
    · simp at found
  refine hear_reconciles {} reporting 1 ['b'] (millis 6000) { chunks := [(1, 3), (2, 1)] } ?_
    (by simp) (fun handle m found => by rw [only handle m found]; rfl)
    fun handle m since found there => ?_
  · rw [reporting, getElem?_insert, if_pos rfl]
  · rw [only handle m found, reportedChunk, getElem?_insert, if_pos rfl] at there
    cases there
    decide

end Gfs.Master
