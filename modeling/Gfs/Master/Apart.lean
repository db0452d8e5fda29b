import Gfs.Master.Names
import Gfs.Master.Reports

/-!
# States that agree but at one chunk

Heartbeats, sweeps, replay and `RecomputeRefcounts` treat each chunk by itself: from tables that
agree but at one chunk they make tables that do, and records about that chunk do nothing else.
-/

namespace Gfs.Master
open Lib.Maps

/-! ## Tables that agree but at one chunk -/

/-- `gone` is the chunk, if there is one. -/
def ChunkTable.Off (gone : Option Handle) (a b : ChunkTable) : Prop :=
  ∀ handle : Handle, gone ≠ some handle → a[handle]? = b[handle]?

def LogRecord.isAbout (gone : Option Handle) : LogRecord → Bool
  | .allocHandle handle => gone = some handle
  | .bumpVersion handle _ => gone = some handle
  | _ => false

def others (gone : Option Handle) (records : List LogRecord) : List LogRecord :=
  records.filter fun record => !record.isAbout gone

structure Heard.Off (gone : Option Handle) (heard heard' : Heard) : Prop where
  chunks : heard.chunks.Off gone heard'.chunks
  reported : ∀ handle : Handle, gone ≠ some handle →
    (handle ∈ heard.reported ↔ handle ∈ heard'.reported)
  records : others gone heard.records = others gone heard'.records

section
variable {cfg : Config} {t : TimePoint} {server : ServerId} {gone : Option Handle} {handle : Handle}
  {a b c : ChunkTable} {heard heard' heard'' : Heard}

theorem ChunkTable.Off.refl : Off gone a a := fun _ _ => rfl

theorem ChunkTable.Off.symm (off : Off gone a b) : Off gone b a :=
  fun handle different => (off handle different).symm

theorem ChunkTable.Off.trans (off : Off gone a b) (off' : Off gone b c) : Off gone a c :=
  fun handle different => (off handle different).trans (off' handle different)

theorem ChunkTable.Off.insert (off : Off gone a b) {m : ChunkMeta} :
    Off gone (a.insert handle m) (b.insert handle m) := by
  intro other different
  rw [getElem?_insert, getElem?_insert, off other different]

theorem ChunkTable.off_insert (same : gone = some handle) {m : ChunkMeta} :
    Off gone a (a.insert handle m) := by
  intro other different
  rw [getElem?_insert, if_neg]
  rintro rfl
  exact different same

theorem ChunkTable.Off.heldBy (off : Off gone a b) (server : ServerId) :
    ((a.heldBy server).filter fun handle => gone ≠ some handle) =
      (b.heldBy server).filter fun handle => gone ≠ some handle := by
  have lists := congrArg (fun entries : List (Handle × ChunkMeta) =>
    (entries.filter fun entry => entry.2.locations.contains server).map (·.1))
    (filter_toList (p := fun handle => gone ≠ some handle) fun handle apart =>
      off handle (by simpa using apart))
  rw [List.filter_comm _ _ a.toList, List.filter_comm _ _ b.toList] at lists
  rw [ChunkTable.heldBy, ChunkTable.heldBy, List.filter_map, List.filter_map]
  exact lists

theorem Heard.Off.symm (off : Heard.Off gone heard heard') : Heard.Off gone heard' heard :=
  ⟨off.chunks.symm, fun handle different => (off.reported handle different).symm, off.records.symm⟩

theorem Heard.Off.trans (off : Heard.Off gone heard heard')
    (off' : Heard.Off gone heard' heard'') : Heard.Off gone heard heard'' :=
  ⟨off.chunks.trans off'.chunks,
    fun handle different => (off.reported handle different).trans (off'.reported handle different),
    off.records.trans off'.records⟩

theorem Heard.Off.refl : Heard.Off gone heard heard := ⟨.refl, fun _ _ => Iff.rfl, rfl⟩

theorem Heard.Off.settle (off : Heard.Off gone heard heard') {verdict : ChunkMeta.Verdict} :
    Heard.Off gone (heard.settle handle verdict) (heard'.settle handle verdict) := by
  refine ⟨off.chunks.insert, fun other different => ?_, ?_⟩
  · simp only [Heard.settle, List.mem_append, off.reported other different]
  · simp only [Heard.settle, others, List.filter_append]
    exact congrArg (· ++ _) off.records

theorem Heard.off_settle (same : gone = some handle) {verdict : ChunkMeta.Verdict} :
    Heard.Off gone heard (heard.settle handle verdict) := by
  refine ⟨ChunkTable.off_insert same, fun other different => ?_, ?_⟩
  · have apart : other ≠ handle := fun here => different (same.trans (congrArg some here.symm))
    simp only [Heard.settle, List.mem_append]
    split <;> simp [apart]
  · simp only [Heard.settle, others, List.filter_append]
    split <;> simp [LogRecord.isAbout, same]

theorem Heard.Off.report (off : Heard.Off gone heard heard') {entry : Handle × Nat}
    (different : gone ≠ some entry.1) :
    Heard.Off gone (heard.report cfg t server entry) (heard'.report cfg t server entry) := by
  unfold Heard.report
  rw [off.chunks entry.1 different]
  split
  · exact ⟨off.chunks, off.reported, off.records⟩
  · exact off.settle

theorem Heard.off_report {entry : Handle × Nat} (same : gone = some entry.1) :
    Heard.Off gone heard (heard.report cfg t server entry) := by
  unfold Heard.report
  split
  · exact ⟨.refl, fun _ _ => Iff.rfl, rfl⟩
  · exact Heard.off_settle same

theorem Heard.Off.miss (off : Heard.Off gone heard heard') (different : gone ≠ some handle) :
    Heard.Off gone (heard.miss cfg t server handle) (heard'.miss cfg t server handle) := by
  unfold Heard.miss
  simp only [off.reported handle different, off.chunks handle different]
  split
  · exact off
  · split
    · exact off
    · exact off.settle

theorem Heard.off_miss (same : gone = some handle) :
    Heard.Off gone heard (heard.miss cfg t server handle) := by
  unfold Heard.miss
  split
  · exact .refl
  · split
    · exact .refl
    · exact Heard.off_settle same

theorem Heard.Off.corrupt (off : Heard.Off gone heard heard') (different : gone ≠ some handle) :
    Heard.Off gone (heard.corrupt cfg t server handle) (heard'.corrupt cfg t server handle) := by
  unfold Heard.corrupt
  rw [off.chunks handle different]
  split
  · exact ⟨off.chunks, off.reported, off.records⟩
  · exact off.settle

theorem Heard.off_corrupt (same : gone = some handle) :
    Heard.Off gone heard (heard.corrupt cfg t server handle) := by
  unfold Heard.corrupt
  split
  · exact ⟨.refl, fun _ _ => Iff.rfl, rfl⟩
  · exact Heard.off_settle same

theorem Heard.Off.extend (off : Heard.Off gone heard heard') (different : gone ≠ some handle) :
    Heard.Off gone (heard.extend cfg t server handle) (heard'.extend cfg t server handle) := by
  unfold Heard.extend
  rw [off.chunks handle different]
  split
  · exact off
  · exact ⟨off.chunks.insert, off.reported, off.records⟩

theorem Heard.off_extend (same : gone = some handle) :
    Heard.Off gone heard (heard.extend cfg t server handle) := by
  unfold Heard.extend
  split
  · exact .refl
  · exact ⟨ChunkTable.off_insert same, fun _ _ => Iff.rfl, rfl⟩

theorem Heard.Off.foldl {ε : Type*} {f : Heard → ε → Heard} (key : ε → Handle)
    (same : ∀ heard heard' e, gone ≠ some (key e) → Heard.Off gone heard heard' →
      Heard.Off gone (f heard e) (f heard' e))
    (apart : ∀ heard e, gone = some (key e) → Heard.Off gone heard (f heard e)) {l l' : List ε}
    (alike : (l.filter fun e => gone ≠ some (key e)) = l'.filter fun e => gone ≠ some (key e))
    (off : Heard.Off gone heard heard') :
    Heard.Off gone (l.foldl f heard) (l'.foldl f heard') :=
  foldl_rel (fun _ _ off => off.symm) (fun _ _ _ off off' => off.trans off')
    (fun heard heard' e different off => same heard heard' e (by simpa using different) off)
    (fun heard e here => apart heard e (by simpa using here)) alike off

theorem ChunkTable.Off.heartBeat (off : ChunkTable.Off gone a b) (req : HeartBeatRequest) :
    Heard.Off gone (a.heartBeat cfg t server req) (b.heartBeat cfg t server req) := by
  have start : Heard.Off gone { chunks := a } { chunks := b } := ⟨off, fun _ _ => Iff.rfl, rfl⟩
  have reports := start.foldl (f := Heard.report cfg t server) (·.1)
    (fun _ _ _ different off => off.report different) (fun _ _ same => Heard.off_report same)
    (l := req.chunks) rfl
  have misses := reports.foldl (f := Heard.miss cfg t server) (fun handle => handle)
    (fun _ _ _ different off => off.miss different) (fun _ _ same => Heard.off_miss same)
    (off.heldBy server)
  have corrupts := misses.foldl (f := Heard.corrupt cfg t server) (fun handle => handle)
    (fun _ _ _ different off => off.corrupt different) (fun _ _ same => Heard.off_corrupt same)
    (l := req.corrupt) rfl
  exact corrupts.foldl (f := Heard.extend cfg t server) (fun handle => handle)
    (fun _ _ _ different off => off.extend different) (fun _ _ same => Heard.off_extend same)
    (l := req.leaseExtensionRequests) rfl

theorem ChunkTable.Off.sweepDead (off : ChunkTable.Off gone a b) (dead : List ServerId) :
    ChunkTable.Off gone (a.sweepDead cfg t dead).1 (b.sweepDead cfg t dead).1 := by
  have one : ∀ server (swept swept' : ChunkTable × List Handle),
      ChunkTable.Off gone swept.1 swept'.1 →
        ChunkTable.Off gone
          ((swept.1.heldBy server).foldl (ChunkTable.sweepChunk cfg t server) swept).1
          ((swept'.1.heldBy server).foldl (ChunkTable.sweepChunk cfg t server) swept').1 := by
    intro server swept swept' off
    refine foldl_rel (R := fun swept swept' : ChunkTable × List Handle =>
        ChunkTable.Off gone swept.1 swept'.1) (fun _ _ off => off.symm)
      (fun _ _ _ off off' => off.trans off') (fun swept swept' handle different off => ?_)
      (fun swept handle same => ?_) (off.heldBy server) off
    · unfold ChunkTable.sweepChunk
      rw [off handle (by simpa using different)]
      split
      · exact off
      · exact off.insert
    · unfold ChunkTable.sweepChunk
      split
      · exact .refl
      · exact ChunkTable.off_insert (by simpa using same)
  have all : ∀ (dead : List ServerId) (swept swept' : ChunkTable × List Handle),
      ChunkTable.Off gone swept.1 swept'.1 →
        ChunkTable.Off gone
          (dead.foldl (fun swept server =>
            (swept.1.heldBy server).foldl (ChunkTable.sweepChunk cfg t server) swept) swept).1
          (dead.foldl (fun swept server =>
            (swept.1.heldBy server).foldl (ChunkTable.sweepChunk cfg t server) swept) swept').1 := by
    intro dead
    induction dead with
    | nil => exact fun _ _ off => off
    | cons server dead ih => exact fun swept swept' off => ih _ _ (one server swept swept' off)
  exact all dead (a, []) (b, []) off

end

/-! ## States and logs that agree but at one chunk -/

/-- The first state is the second one but for the chunk and a larger next handle. -/
structure SameBut (gone : Option Handle) (s t : MasterState) : Prop where
  files : s.files = t.files
  handles : ∀ handle : Handle, handle ∈ s.chunks ↔ handle ∈ t.chunks
  off : s.chunks.Off gone t.chunks
  nextHandle : t.nextHandle ≤ s.nextHandle

def recovered (records : List LogRecord) : MasterState :=
  (({} : MasterState).replay records).recomputeRefcounts

def LogRecord.Raises (record : LogRecord) : Prop :=
  ∃ handle version, record = .bumpVersion handle version

/-- The logs end with records that raise versions, alike but for the chunk; only the first one may
have its allocation. -/
def Logs (gone : Option Handle) (log log' : List LogRecord) : Prop :=
  ∃ base records records', (∀ record ∈ records, record.isAbout gone = true ∨ record.Raises) ∧
    (∀ record ∈ records', record.Raises) ∧ others gone records = others gone records' ∧
    log = base ++ records ∧ log' = base ++ records'

section
variable {gone : Option Handle} {handle : Handle} {s t u : MasterState}
  {records records' log log' : List LogRecord}

theorem mem_modify {chunks : ChunkTable} {f : ChunkMeta → ChunkMeta} {other : Handle} :
    other ∈ chunks.modify handle f ↔ other ∈ chunks :=
  Std.ExtTreeMap.mem_modify

theorem ChunkTable.Off.modify {a b : ChunkTable} (off : Off gone a b) {f : ChunkMeta → ChunkMeta} :
    Off gone (a.modify handle f) (b.modify handle f) := by
  intro other different
  rw [getElem?_modify, getElem?_modify, off other different]

theorem ChunkTable.off_modify {a : ChunkTable} (same : gone = some handle)
    {f : ChunkMeta → ChunkMeta} : Off gone (a.modify handle f) a := by
  intro other different
  rw [getElem?_modify, if_neg]
  rintro rfl
  exact different same

theorem SameBut.bump (same : SameBut gone s t) {version : Nat} :
    SameBut gone (s.applyBumpVersion handle version) (t.applyBumpVersion handle version) :=
  ⟨same.files, fun other => mem_modify.trans ((same.handles other).trans mem_modify.symm),
    same.off.modify, same.nextHandle⟩

theorem SameBut.about (same : SameBut gone s t) {record : LogRecord}
    (about : record.isAbout gone = true) : SameBut gone (s.apply record) t := by
  cases record with
  | allocHandle handle =>
      exact ⟨same.files, same.handles, same.off,
        Nat.le_trans same.nextHandle (Nat.le_max_left _ _)⟩
  | bumpVersion handle version =>
      have here : gone = some handle := by simpa [LogRecord.isAbout] using about
      exact ⟨same.files, fun other => mem_modify.trans (same.handles other),
        (ChunkTable.off_modify here).trans same.off, same.nextHandle⟩
  | create | rename | remove | addChunk | replaceChunk | snapshot | dropChunk | bodyNotSet =>
      cases about

theorem SameBut.trans (same : SameBut gone s t) (same' : SameBut gone t u) : SameBut gone s u :=
  ⟨same.files.trans same'.files, fun handle => (same.handles handle).trans (same'.handles handle),
    same.off.trans same'.off, Nat.le_trans same'.nextHandle same.nextHandle⟩

theorem SameBut.replay (same : SameBut gone s t)
    (bumps : ∀ record ∈ records, record.isAbout gone = true ∨ record.Raises) :
    SameBut gone (s.replay records) (t.replay (others gone records)) := by
  induction records generalizing s t with
  | nil => exact same
  | cons record records ih =>
      have rest := fun later member => bumps later (List.mem_cons_of_mem _ member)
      cases about : record.isAbout gone with
      | true =>
          rw [others, List.filter_cons_of_neg (by simp [about])]
          exact ih (same.about about) rest
      | false =>
          rw [others, List.filter_cons_of_pos (by simp [about])]
          obtain ⟨handle, version, rfl⟩ :=
            (bumps record List.mem_cons_self).resolve_left (by simp [about])
          exact ih same.bump rest

theorem SameBut.replay_others (same : SameBut gone s t)
    (raises : ∀ record ∈ records, record.Raises) :
    SameBut gone (s.replay (others gone records)) (t.replay records) := by
  induction records generalizing s t with
  | nil => exact same
  | cons record records ih =>
      have rest := fun later member => raises later (List.mem_cons_of_mem _ member)
      obtain ⟨handle, version, rfl⟩ := raises record List.mem_cons_self
      cases about : LogRecord.isAbout gone (.bumpVersion handle version) with
      | true =>
          have here : gone = some handle := by simpa [LogRecord.isAbout] using about
          rw [others, List.filter_cons_of_neg (by simp [about])]
          refine ih ⟨same.files, fun other => (same.handles other).trans mem_modify.symm, ?_,
            same.nextHandle⟩ rest
          exact same.off.trans (ChunkTable.off_modify here).symm
      | false =>
          rw [others, List.filter_cons_of_pos (by simp [about])]
          exact ih same.bump rest

theorem SameBut.countReference (same : SameBut gone s t) :
    SameBut gone (s.countReference handle) (t.countReference handle) := by
  refine ⟨same.files, fun other => ?_, ?_, max_le_max same.nextHandle (Nat.le_refl _)⟩
  · refine mem_modify.trans (Iff.trans ?_ mem_modify.symm)
    simp only [ChunkTable.create, Std.ExtTreeMap.mem_insertIfNew, same.handles other]
  · apply ChunkTable.Off.modify
    intro other different
    simp only [ChunkTable.create, Std.ExtTreeMap.getElem?_insertIfNew, same.handles handle,
      same.off other different]

theorem SameBut.recomputeRefcounts (same : SameBut gone s t) :
    SameBut gone s.recomputeRefcounts t.recomputeRefcounts := by
  have counted : ∀ (handles : List Handle) {s t : MasterState}, SameBut gone s t →
      SameBut gone (handles.foldl MasterState.countReference s)
        (handles.foldl MasterState.countReference t) := by
    intro handles
    induction handles with
    | nil => exact fun same => same
    | cons handle handles ih => exact fun same => ih same.countReference
  have listed : ∀ (entries : List (Str × FileMeta)) {s t : MasterState}, SameBut gone s t →
      SameBut gone
        (entries.foldl (fun s entry => entry.2.chunks.foldl MasterState.countReference s) s)
        (entries.foldl (fun s entry => entry.2.chunks.foldl MasterState.countReference s) t) := by
    intro entries
    induction entries with
    | nil => exact fun same => same
    | cons entry entries ih => exact fun same => ih (counted entry.2.chunks same)
  unfold MasterState.recomputeRefcounts
  rw [same.files]
  apply listed
  refine ⟨rfl, fun other => ?_, fun other different => ?_, same.nextHandle⟩
  · simp only [MasterState.zeroRefcounts, Std.ExtTreeMap.mem_map, same.handles other]
  · rw [MasterState.zeroRefcounts, MasterState.zeroRefcounts, Std.ExtTreeMap.getElem?_map,
      Std.ExtTreeMap.getElem?_map, same.off other different]

theorem sameBut_refl : SameBut gone s s := ⟨rfl, fun _ => Iff.rfl, .refl, Nat.le_refl _⟩

theorem Logs.append (logs : Logs gone log log')
    (bumps : ∀ record ∈ records, record.isAbout gone = true ∨ record.Raises)
    (raises : ∀ record ∈ records', record.Raises)
    (alike : others gone records = others gone records') :
    Logs gone (log ++ records) (log' ++ records') := by
  obtain ⟨base, before, before', earlier, earlier', same, rfl, rfl⟩ := logs
  refine ⟨base, before ++ records, before' ++ records', fun record member => ?_,
    fun record member => ?_, ?_, List.append_assoc _ _ _, List.append_assoc _ _ _⟩
  · exact (List.mem_append.mp member).elim (earlier record) (bumps record)
  · exact (List.mem_append.mp member).elim (earlier' record) (raises record)
  · have alike' : records.filter _ = records'.filter _ := alike
    rw [others, others, List.filter_append, List.filter_append, alike']
    exact congrArg (· ++ _) same

theorem Logs.recovered (logs : Logs gone log log') :
    SameBut gone (recovered log) (recovered log') := by
  obtain ⟨base, records, records', bumps, raises, alike, rfl, rfl⟩ := logs
  unfold Master.recovered
  rw [MasterState.replay_append, MasterState.replay_append]
  have first := (sameBut_refl (s := ({} : MasterState).replay base)).replay bumps
  rw [alike] at first
  exact (first.trans (sameBut_refl.replay_others raises)).recomputeRefcounts

theorem exists_take_filter {α : Type*} {p : α → Bool} {l part : List α}
    (before : part <+: l.filter p) : ∃ n, (l.take n).filter p = part := by
  induction l generalizing part with
  | nil => exact ⟨0, (List.prefix_nil.mp before).symm⟩
  | cons x l ih =>
      cases kept : p x with
      | false =>
          rw [List.filter_cons_of_neg (by simp [kept])] at before
          obtain ⟨n, same⟩ := ih before
          exact ⟨n + 1, by rw [List.take_succ_cons, List.filter_cons_of_neg (by simp [kept]), same]⟩
      | true =>
          rw [List.filter_cons_of_pos kept] at before
          cases part with
          | nil => exact ⟨0, rfl⟩
          | cons y part =>
              obtain ⟨rfl, rest⟩ := List.cons_prefix_cons.mp before
              obtain ⟨n, same⟩ := ih rest
              exact ⟨n + 1, by rw [List.take_succ_cons, List.filter_cons_of_pos kept, same]⟩

/-- To what recovery finds of the one log belongs a part of the other. -/
theorem Logs.take (logs : Logs gone log log') (kept : Nat) :
    ∃ kept', Logs gone (log.take kept) (log'.take kept') := by
  obtain ⟨base, records, records', bumps, raises, alike, rfl, rfl⟩ := logs
  by_cases short : kept ≤ base.length
  · refine ⟨kept, base.take kept, [], [], by simp, by simp, rfl, ?_, ?_⟩ <;>
      rw [List.take_append_of_le_length short, List.append_nil]
  · obtain ⟨n, same⟩ := exists_take_filter
      (alike ▸ (List.take_prefix (kept - base.length) records).filter _ :
        others gone (records.take (kept - base.length)) <+: others gone records')
    refine ⟨base.length + n, base, records.take (kept - base.length), records'.take n,
      fun record member => bumps record (List.mem_of_mem_take member),
      fun record member => raises record (List.mem_of_mem_take member), same.symm, ?_, ?_⟩
    · rw [List.take_append, List.take_of_length_le (Nat.le_of_not_le short)]
    · exact List.take_length_add_append _

end

end Gfs.Master
