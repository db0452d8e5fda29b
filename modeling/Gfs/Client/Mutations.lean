import Gfs.Client.Sees

/-!
# How a client changes its file

A call that changes a chunk has a lease that names the whole group, pushes its data and has it
placed by the primary: the chunk changes on every replica or on none. The loops of `WriteChunk` and
`RecordAppend` may try several times and create chunks on their way.
-/

namespace Gfs.Client
open World
open Chunkserver (MutationOp Placed)

variable {e : Setting} {c c' : State World} {file file' : List Bytes} {index : Nat} {lease : Lease}

/-! ## Leases -/

theorem Sees.forget (sees : Sees e c file) :
    Sees e { c with leases := c.leases.invalidate e.path index } file := by
  refine ⟨⟨sees.whole, sees.locations, fun other lease expiry there => ?_, sees.size⟩, sees.loaded⟩
  simp only [Cache.invalidate] at there
  split at there
  · cases there
  · exact sees.leases other lease expiry there

theorem getLease_sees (sees : Sees e c file) :
    ∃ found c', c.getLease e.net e.path index = (found, c') ∧ Sees e c' file ∧
      ∀ lease ∈ found, c'.world.Leased index lease := by
  unfold State.getLease
  cases cached : c.leases e.path index with
  | none => exact ⟨none, c, rfl, sees, nofun⟩
  | some entry =>
      obtain ⟨lease, expiry⟩ := entry
      by_cases past : expiry ≤ (c.world.tick e).clock
      · exact ⟨none, _, if_pos past, sees.tick.forget, nofun⟩
      · refine ⟨some lease, _, if_neg past, sees.tick, ?_⟩
        rintro _ ⟨⟩
        exact (sees.leases index lease expiry cached).onward (tick_steady _).onward

theorem putLease_sees (sees : Sees e c file) (leased : c.world.Leased index lease) :
    Sees e (c.putLease e.net e.cfg e.path index lease) file ∧
      (c.putLease e.net e.cfg e.path index lease).world.Leased index lease := by
  have moved := sees.tick
  have still : (c.world.tick e).Leased index lease := leased.onward (tick_steady _).onward
  refine ⟨⟨⟨moved.whole, moved.locations, fun other lease' expiry there => ?_, sees.size⟩,
    sees.loaded⟩, still⟩
  simp only [State.putLease, Setting.net, Cache.put] at there
  split at there
  · rename_i same
    cases there
    exact same.2 ▸ still
  · exact moved.leases other lease' expiry there

theorem findLease_sees (sees : Sees e c file) :
    ∃ result c', c.findLease e.net e.cfg e.path index = (result, c') ∧ Sees e c' file ∧
      ∀ lease fromCache, result = .ok (lease, fromCache) → c'.world.Leased index lease := by
  obtain ⟨found, c₁, got, sees₁, leased⟩ : ∃ found c',
    c.getLease e.net e.path index = (found, c') ∧ _ := getLease_sees sees
  unfold State.findLease
  rw [got]
  cases found with
  | some lease => exact ⟨_, c₁, rfl, sees₁, fun _ _ is => by cases is; exact leased lease rfl⟩
  | none =>
      obtain ⟨whole, onward, answer⟩ := @findLeaseHolder_cases e _ file index sees₁.tick.whole
      have asked : e.net.findLeaseHolder e.path index c₁.world =
        (c₁.world.tick e).findLeaseHolder e e.path index := rfl
      simp only [asked]
      generalize (c₁.world.tick e).findLeaseHolder e e.path index = out at *
      obtain ⟨⟨grpc, code, lease⟩, w⟩ := out
      have moved : Sees e { c₁ with world := w } file := sees₁.tick.move onward whole
      rcases answer with ⟨rfl, -⟩ | ⟨rfl, rfl | ⟨rfl, leased⟩⟩
      · exact ⟨_, _, rfl, moved, nofun⟩
      · exact ⟨_, _, rfl, moved, nofun⟩
      · obtain ⟨put, still⟩ := putLease_sees moved leased
        exact ⟨_, _, rfl, put, fun _ _ is => by cases is; exact still⟩

/-! ## One attempt -/

def Pushed (w : World) (lease : Lease) (key : Chunkserver.BufferKey) (data : Bytes) : Prop :=
  ∀ m, w.chunks lease.handle = some m → w.Waits key data m.locations.keys

theorem pushData_sees {sequence : Nat} {data : Bytes} (sees : Sees e c file)
    (leased : c.world.Leased index lease) :
    ∃ c', c.pushData e.net lease sequence data = (.ok (), c') ∧ Sees e c' file ∧
      c'.world.Leased index lease ∧ c'.clientId = c.clientId ∧
      Pushed c'.world lease ⟨c.clientId, sequence⟩ data := by
  obtain ⟨here, m, found, group⟩ := leased.onward (tick_steady (e := e) c.world).onward
  obtain ⟨steady, pushed, -⟩ := @pushAll (c.world.tick e) data ⟨c.clientId, sequence⟩
    (lease.primary :: lease.secondaries)
  refine ⟨_, rfl, sees.tick.move steady.onward (sees.tick.whole.steady steady),
    (leased.onward (tick_steady _).onward).onward steady.onward, rfl, fun m' found' => ?_⟩
  obtain ⟨m'', found'', -, same⟩ := steady.onward.chunks _ m found
  cases found''.symm.trans found'
  rw [same]
  intro server member
  obtain ⟨replica, among, rfl⟩ := group server member
  exact pushed _ (List.mem_map_of_mem among)

theorem mutate_sees {server : ServerId} {op : MutationOp} {new : Bytes} (sees : Sees e c file)
    (leased : c.world.Leased index lease) (pushed : Pushed c.world lease op.key new)
    (client : op.isClient = true) :
    let out := (c.world.tick e).mutate e server lease.handle op
    (Sees e { c with world := out.2 } file ∧ out.2.Leased index lease ∧ out.1.code ≠ .ok ∧
        out.1.code ≠ .retryNextChunk) ∨
      ∃ request, Placed e.cfg.chunkSize (file.getD index []) new op request ∧
        out.1 = Chunkserver.Replica.afterForward request true op ∧
        Sees e { c with world := out.2 }
          (file.set index (request.result e.cfg.chunkSize new (file.getD index []))) := by
  have ticked := sees.tick
  obtain ⟨here, m, found, group⟩ := leased.onward (tick_steady (e := e) c.world).onward
  have inside : index < file.length := ticked.whole.length ▸ (List.getElem?_eq_some_iff.mp here).1
  obtain ⟨handle, m', here', copied⟩ := ticked.whole.found inside
  cases here.symm.trans here'
  cases found.symm.trans copied.known
  have waits : (c.world.tick e).Waits op.key new m.locations.keys := by
    obtain ⟨-, m₀, found₀, -⟩ := leased
    obtain ⟨m₁, found₁, -, same⟩ := (tick_steady (e := e) c.world).onward.chunks _ m₀ found₀
    cases found₁.symm.trans found
    rw [same]
    exact tick_waits (pushed m₀ found₀)
  obtain ⟨beside, outcome⟩ := @mutate_cases e _ _ _ _ _ server op copied waits client
  rw [List.getD_eq_getElem _ _ inside]
  rcases outcome with ⟨kept, bad, full⟩ | ⟨request, placed, response, changed⟩
  · have onward := beside.onward copied.known kept.known le_rfl rfl
    have whole := ticked.whole.update beside here kept
    rw [List.set_getElem_self] at whole
    exact .inl ⟨ticked.move onward whole,
      (leased.onward (tick_steady _).onward).onward onward, bad, full⟩
  · have onward := beside.onward copied.known changed.known le_rfl rfl
    exact .inr ⟨request, placed, response, ticked.move onward (ticked.whole.update beside here changed)⟩

theorem attempt_sees (new : Bytes) (op : MutationOp) (sees : Sees e c file)
    (leased : c.world.Leased index lease) (client : op.isClient = true)
    (key : op.key = ⟨c.clientId, c.sequence⟩) :
    ∃ c₁, c.nextSequence.pushData e.net lease c.sequence new = (.ok (), c₁) ∧
      c₁.clientId = c.clientId ∧
      let out := (c₁.world.tick e).mutate e lease.primary.chunkserverId lease.handle op
      (Sees e { c₁ with world := out.2 } file ∧ out.2.Leased index lease ∧ out.1.code ≠ .ok ∧
          out.1.code ≠ .retryNextChunk) ∨
        ∃ request, Placed e.cfg.chunkSize (file.getD index []) new op request ∧
          out.1 = Chunkserver.Replica.afterForward request true op ∧
          Sees e { c₁ with world := out.2 }
            (file.set index (request.result e.cfg.chunkSize new (file.getD index []))) := by
  have next : Sees e c.nextSequence file :=
    ⟨⟨sees.whole, sees.locations, sees.leases, sees.size⟩, sees.loaded⟩
  have leased' : c.nextSequence.world.Leased index lease := leased
  obtain ⟨c₁, pushed, sees₁, leased₁, same, waits⟩ : ∃ c',
    c.nextSequence.pushData e.net lease c.sequence new = (.ok (), c') ∧ _ :=
    pushData_sees next leased'
  refine ⟨c₁, pushed, same, mutate_sees sees₁ leased₁ ?_ client⟩
  rw [key]
  exact waits

theorem tryWriteLoop_sees {inner inChunk : Nat} {data : Bytes} {last : ErrorCode} {status : Status}
    (sees : Sees e c file) (leased : c.world.Leased index lease) (some : data ≠ [])
    (ran : c.tryWriteLoop e.net lease inChunk data inner last = (status, c')) :
    (∃ code, status = .error code ∧ Sees e c' file) ∨
      status = .ok () ∧ Sees e c' (file.set index
        (Lib.Overlay.overlay 0 (file.getD index []) inChunk data)) := by
  induction inner generalizing c last with
  | zero =>
      cases ran
      exact .inl ⟨last, rfl, sees⟩
  | succ inner ih =>
      obtain ⟨c₁, pushed, same, outcome⟩ := attempt_sees data
        (.write lease.version inChunk ⟨c.clientId, c.sequence⟩) sees leased rfl rfl
      unfold State.tryWriteLoop at ran
      dsimp only at ran
      rw [pushed] at ran
      have asked : e.net.write lease.primary (c₁.mutation lease c.sequence) inChunk c₁.world =
          ((.ok, ((c₁.world.tick e).mutate e lease.primary.chunkserverId lease.handle
              (.write lease.version inChunk ⟨c.clientId, c.sequence⟩)).1.code),
            ((c₁.world.tick e).mutate e lease.primary.chunkserverId lease.handle
              (.write lease.version inChunk ⟨c.clientId, c.sequence⟩)).2) := by
        rw [← same]
        rfl
      simp only [asked] at ran
      generalize (c₁.world.tick e).mutate e lease.primary.chunkserverId lease.handle
        (.write lease.version inChunk ⟨c.clientId, c.sequence⟩) = out at ran outcome
      obtain ⟨response, w⟩ := out
      rcases outcome with ⟨kept, leased₂, bad, full⟩ | ⟨request, placed, rfl, changed⟩
      · cases code : response.code with
        | ok => exact absurd code bad
        | dataMissing =>
            simp only [code, fromGrpc] at ran
            exact ih kept leased₂ ran
        | failed =>
            simp only [code, fromGrpc] at ran
            exact ih kept leased₂ ran
        | _ =>
            simp only [code, fromGrpc, fromResultCode] at ran
            cases ran
            exact .inl ⟨_, rfl, kept⟩
      · obtain ⟨kind, offset, -⟩ := placed.write _ _ _ rfl
        have answered : (Chunkserver.Replica.afterForward request true
          (.write lease.version inChunk ⟨c.clientId, c.sequence⟩)).code = .ok := rfl
        simp only [answered, fromGrpc, fromResultCode] at ran
        cases ran
        rw [Chunkserver.ApplyMutationRequest.result, kind, offset] at changed
        dsimp only at changed
        rw [if_neg some] at changed
        exact .inr ⟨rfl, changed⟩

theorem tryAppendLoop_sees {inner : Nat} {data : Bytes} {last : ErrorCode} {attempt : Attempt}
    (sees : Sees e c file) (leased : c.world.Leased index lease)
    (low : (file.getD index []).length + data.length < 2 ^ 64)
    (ran : c.tryAppendLoop e.net lease data inner last = (attempt, c')) :
    (∃ code, attempt = .failed code ∧ Sees e c' file) ∨
      (attempt = .nextChunk ∧ e.cfg.chunkSize < (file.getD index []).length + data.length ∧
        Sees e c' (file.set index (Chunkserver.ChunkStore.padded e.cfg.chunkSize
          (file.getD index []) (file.getD index []).length))) ∨
      attempt = .appended (file.getD index []).length ∧
        (file.getD index []).length + data.length ≤ e.cfg.chunkSize ∧
        Sees e c' (file.set index (file.getD index [] ++ data)) := by
  induction inner generalizing c last with
  | zero =>
      cases ran
      exact .inl ⟨last, rfl, sees⟩
  | succ inner ih =>
      obtain ⟨c₁, pushed, same, outcome⟩ := attempt_sees data
        (.append lease.version ⟨c.clientId, c.sequence⟩) sees leased rfl rfl
      unfold State.tryAppendLoop at ran
      dsimp only at ran
      rw [pushed] at ran
      have asked : e.net.recordAppend lease.primary (c₁.mutation lease c.sequence) c₁.world =
          ((.ok, ((c₁.world.tick e).mutate e lease.primary.chunkserverId lease.handle
              (.append lease.version ⟨c.clientId, c.sequence⟩)).1.code,
            ((c₁.world.tick e).mutate e lease.primary.chunkserverId lease.handle
              (.append lease.version ⟨c.clientId, c.sequence⟩)).1.offset),
            ((c₁.world.tick e).mutate e lease.primary.chunkserverId lease.handle
              (.append lease.version ⟨c.clientId, c.sequence⟩)).2) := by
        rw [← same]
        rfl
      simp only [asked] at ran
      generalize (c₁.world.tick e).mutate e lease.primary.chunkserverId lease.handle
        (.append lease.version ⟨c.clientId, c.sequence⟩) = out at ran outcome
      obtain ⟨response, w⟩ := out
      rcases outcome with ⟨kept, leased₂, bad, full⟩ | ⟨request, placed, rfl, changed⟩
      · cases code : response.code with
        | ok => exact absurd code bad
        | retryNextChunk => exact absurd code full
        | dataMissing =>
            simp only [code, fromGrpc] at ran
            exact ih kept leased₂ ran
        | failed =>
            simp only [code, fromGrpc] at ran
            exact ih kept leased₂ ran
        | _ =>
            simp only [code, fromGrpc, fromResultCode] at ran
            cases ran
            exact .inl ⟨_, rfl, kept⟩
      · obtain ⟨offset, kind⟩ := placed.append _ _ rfl
        rw [u64_of_lt low] at kind
        by_cases fits : (file.getD index []).length + data.length ≤ e.cfg.chunkSize
        · rw [if_neg (Nat.not_lt.mpr fits)] at kind
          have answered : Chunkserver.Replica.afterForward request true
              (.append lease.version ⟨c.clientId, c.sequence⟩) =
                { code := .ok, offset := request.offset } := by
            unfold Chunkserver.Replica.afterForward
            simp [kind]
          simp only [answered, fromGrpc] at ran
          cases ran
          rw [Chunkserver.ApplyMutationRequest.result, kind, offset] at changed
          refine .inr (.inr ⟨by rw [offset], fits, ?_⟩)
          by_cases nothing : data = []
          · subst nothing
            simpa using changed
          · have appended : Lib.Overlay.overlay 0 (file.getD index []) (file.getD index []).length data =
                file.getD index [] ++ data := Lib.Overlay.overlay_end
            dsimp only at changed
            rw [if_neg nothing] at changed
            rwa [← appended]
        · have full := Nat.lt_of_not_le fits
          rw [if_pos full] at kind
          have answered : Chunkserver.Replica.afterForward request true
              (.append lease.version ⟨c.clientId, c.sequence⟩) = { code := .retryNextChunk } := by
            unfold Chunkserver.Replica.afterForward
            simp [kind]
          simp only [answered, fromGrpc] at ran
          cases ran
          rw [Chunkserver.ApplyMutationRequest.result, kind, offset] at changed
          exact .inr (.inl ⟨rfl, full, changed⟩)

/-! ## New chunks -/

def more (file : List Bytes) (k : Nat) : List Bytes := file ++ List.replicate k []

theorem more_zero : more file 0 = file := List.append_nil file

theorem more_succ {k : Nat} : more (file ++ [[]]) k = more file (k + 1) := by
  unfold more
  rw [List.append_assoc, List.replicate_succ]
  rfl

theorem length_more {k : Nat} : (more file k).length = file.length + k := by
  unfold more
  rw [List.length_append, List.length_replicate]

/-- As many chunks as `EnsureChunk` adds for an index. -/
structure Added (file : List Bytes) (index k : Nat) (status : Option Status) : Prop where
  upTo : file.length + k ≤ max file.length (index + 1)
  enough : status = some (.ok ()) → index < file.length + k
  short : ∀ code, status = some (.error code) → file.length + k ≤ index

theorem Added.present (inside : index < file.length) : Added file index 0 (some (.ok ())) :=
  ⟨by omega, fun _ => inside, fun _ same => by cases same⟩

theorem Added.refused {status : Option Status} (outside : file.length ≤ index)
    (failed : status ≠ some (.ok ())) : Added file index 0 status :=
  ⟨by omega, fun ok => absurd ok failed, fun _ _ => outside⟩

theorem addChunks_sees {fuel next : Nat} {status : Option Status} (sees : Sees e c file)
    (ran : c.addChunks e.net e.path index fuel next = (status, c')) :
    ∃ k, Sees e c' (more file k) ∧
      (next = file.length → index + 1 < 2 ^ 64 → Added file index k status) := by
  induction fuel generalizing c file next with
  | zero =>
      unfold State.addChunks at ran
      by_cases done : index < next
      · rw [if_pos done] at ran
        cases ran
        exact ⟨0, more_zero.symm ▸ sees, fun is _ => .present (by omega)⟩
      · rw [if_neg done] at ran
        cases ran
        exact ⟨0, more_zero.symm ▸ sees, fun is _ => .refused (by omega) (by simp)⟩
  | succ fuel ih =>
      unfold State.addChunks at ran
      by_cases done : index < next
      · rw [if_pos done] at ran
        cases ran
        exact ⟨0, more_zero.symm ▸ sees, fun is _ => .present (by omega)⟩
      · rw [if_neg done] at ran
        have asked : e.net.addChunk e.path next c.world = (c.world.tick e).addChunk e e.path next := rfl
        obtain ⟨onward, outcome⟩ := @addChunk_cases e _ file next sees.tick.whole
        simp only [asked] at ran
        generalize (c.world.tick e).addChunk e e.path next = out at ran onward outcome
        obtain ⟨⟨grpc, code⟩, w⟩ := out
        rcases outcome with ⟨whole, ⟨rfl, beyond⟩ | ⟨rfl, rfl | before⟩⟩ | ⟨rfl, ⟨⟩, whole⟩
        · cases ran
          exact ⟨0, more_zero.symm ▸ sees.tick.move onward whole,
            fun is _ => .refused (by omega) (by simp)⟩
        · cases ran
          exact ⟨0, more_zero.symm ▸ sees.tick.move onward whole,
            fun is _ => .refused (by omega) (by simp)⟩
        · have kept : Sees e { c with world := w } file := sees.tick.move onward whole
          cases answer : fromResultCode code with
          | error error =>
              simp only [fromGrpc, answer] at ran
              cases ran
              exact ⟨0, more_zero.symm ▸ kept, fun is _ => .refused (by omega) (by simp)⟩
          | ok _ =>
              simp only [fromGrpc, answer] at ran
              obtain ⟨k, sees', -⟩ := ih kept ran
              exact ⟨k, sees', fun is => absurd before (by omega)⟩
        · have kept : Sees e { c with world := w } (file ++ [[]]) := sees.tick.move onward whole
          simp only [fromGrpc, fromResultCode] at ran
          obtain ⟨k, sees', bounds⟩ := ih kept ran
          rw [more_succ] at sees'
          refine ⟨k + 1, sees', fun _ low => ?_⟩
          have next : u64 (file.length + 1) = (file ++ [[]]).length := by
            rw [u64_of_lt (by omega)]
            simp
          obtain ⟨upTo, enough, short⟩ := bounds next low
          rw [List.length_append, List.length_singleton] at upTo enough short
          refine ⟨by omega, fun ok => ?_, fun code failed => ?_⟩
          · have inside := enough ok
            omega
          · have outside := short code failed
            omega

theorem ensureChunk_sees {fuel : Nat} {status : Option Status} (sees : Sees e c file)
    (ran : c.ensureChunk e.net fuel e.path index = (status, c')) :
    ∃ k, Sees e c' (more file k) ∧ (index + 1 < 2 ^ 64 → Added file index k status) := by
  obtain ⟨c₁, opened, sees₁⟩ := openFile_sees sees
  unfold State.ensureChunk at ran
  rw [opened] at ran
  obtain ⟨k, sees', bounds⟩ := addChunks_sees sees₁ ran
  exact ⟨k, sees', bounds rfl⟩

/-! ## Turns -/

theorem leaseTurn_sees {α : Type} {fuel : Nat} {r : Retry}
    {found : Option (Turn α ⊕ Lease × Bool)} (sees : Sees e c file)
    (ran : c.leaseTurn e.net e.cfg fuel e.path r = (found, c')) :
    (∃ lease fromCache, found = some (.inr (lease, fromCache)) ∧ Sees e c' file ∧
        c'.world.Leased r.index lease) ∨
      (∃ r' k, found = some (.inl (.again r')) ∧ r'.index = r.index ∧ Sees e c' (more file k) ∧
        (r.index + 1 < 2 ^ 64 → file.length + k ≤ max file.length (r.index + 1))) ∨
      found = none ∨ ∃ code, found = some (.inl (.done (.error code))) := by
  obtain ⟨result, c₁, asked, sees₁, leased⟩ : ∃ result c',
    c.findLease e.net e.cfg e.path r.index = (result, c') ∧ _ := findLease_sees sees
  unfold State.leaseTurn at ran
  rw [asked] at ran
  cases result with
  | ok both =>
      obtain ⟨lease, fromCache⟩ := both
      cases ran
      exact .inl ⟨lease, fromCache, rfl, sees₁, leased lease fromCache rfl⟩
  | error code =>
      dsimp only at ran
      by_cases missing : code = .notFound ∧ (!r.ensured) = true
      · rw [if_pos missing] at ran
        cases ensured : c₁.ensureChunk e.net fuel e.path r.index with
        | mk status c₂ =>
          obtain ⟨k, sees₂, bounds⟩ := ensureChunk_sees sees₁ ensured
          rw [ensured] at ran
          cases status with
          | none =>
              cases ran
              exact .inr (.inr (.inl rfl))
          | some status =>
              cases status with
              | ok _ =>
                  cases ran
                  exact .inr (.inl ⟨_, k, rfl, rfl, sees₂, fun low => (bounds low).upTo⟩)
              | error code =>
                  cases code with
                  | notFound =>
                      cases ran
                      exact .inr (.inr (.inr ⟨_, rfl⟩))
                  | invalidArgument =>
                      cases ran
                      exact .inr (.inr (.inr ⟨_, rfl⟩))
                  | _ =>
                      cases ran
                      exact .inr (.inl ⟨_, k, rfl, rfl, sees₂, fun low => (bounds low).upTo⟩)
      · rw [if_neg missing] at ran
        by_cases later : isRetryableLater code = true
        · rw [if_pos later] at ran
          cases ran
          exact .inr (.inl ⟨_, 0, rfl, rfl, more_zero.symm ▸ sees₁, fun _ => by omega⟩)
        · rw [if_neg later] at ran
          cases ran
          exact .inr (.inr (.inr ⟨_, rfl⟩))

theorem failedTurn_sees {α : Type} {r : Retry} {fromCache : Bool} {code : ErrorCode} {turn : Turn α}
    (sees : Sees e c file) (ran : c.failedTurn e.path r fromCache code = (turn, c')) :
    Sees e c' file ∧
      ((∃ code, turn = .done (.error code)) ∨ ∃ r', turn = .again r' ∧ r'.index = r.index) := by
  unfold State.failedTurn at ran
  by_cases bad : code = .invalidArgument
  · rw [if_pos bad] at ran
    cases ran
    exact ⟨sees, .inl ⟨_, rfl⟩⟩
  · rw [if_neg bad] at ran
    dsimp only at ran
    cases fromCache with
    | true =>
        cases ran
        exact ⟨sees.forget, .inr ⟨_, rfl, rfl⟩⟩
    | false =>
        cases ran
        exact ⟨sees.forget, .inr ⟨_, rfl, rfl⟩⟩

/-- What every turn keeps, and what a turn that returns has, a loop that returns has. -/
theorem retryLoop_ok {α ω : Type} {cfg : Config} {turn : Retry → State ω → Option (Turn α) × State ω}
    {fuel : Nat} {r : Retry} {c c' : State ω} {v : α} (keeps : Retry → State ω → Prop)
    (ends : α → State ω → Prop)
    (again : ∀ r c r' c', keeps r c → turn r c = (some (.again r'), c') → keeps r' c')
    (done : ∀ r c v c', keeps r c → turn r c = (some (.done (.ok v)), c') → ends v c')
    (kept : keeps r c) (ran : State.retryLoop cfg turn fuel r c = (some (.ok v), c')) : ends v c' := by
  induction fuel generalizing r c with
  | zero =>
      unfold State.retryLoop at ran
      split at ran <;> cases ran
  | succ fuel ih =>
      unfold State.retryLoop at ran
      split at ran
      · cases ran
      · dsimp only at ran
        split at ran
        · cases ran
        · rename_i turned
          cases ran
          exact done _ _ _ _ kept turned
        · rename_i turned
          exact ih (again _ _ _ _ kept turned) ran

/-! ## `WriteChunk` -/

/-- The loop is at a chunk, and perhaps has created it. -/
structure Writing (e : Setting) (file : List Bytes) (index : Nat) (r : Retry) (c : State World) :
    Prop where
  here : r.index = index
  created : ∃ k, file.length + k ≤ max file.length (index + 1) ∧ Sees e c (more file k)

theorem Writing.leaseTurn {α : Type} {fuel : Nat} {r : Retry}
    {found : Option (Turn α ⊕ Lease × Bool)} (writing : Writing e file index r c)
    (low : index + 1 < 2 ^ 64) (ran : c.leaseTurn e.net e.cfg fuel e.path r = (found, c')) :
    (∃ lease fromCache, found = some (.inr (lease, fromCache)) ∧ Writing e file index r c' ∧
        c'.world.Leased index lease) ∨
      (∃ r', found = some (.inl (.again r')) ∧ Writing e file index r' c') ∨
      found = none ∨ ∃ code, found = some (.inl (.done (.error code))) := by
  obtain ⟨rfl, k, upTo, sees⟩ := writing
  rcases leaseTurn_sees sees ran with ⟨lease, fromCache, rfl, sees', leased⟩ |
    ⟨r', k', rfl, same, sees', bound⟩ | rfl | ⟨code, rfl⟩
  · exact .inl ⟨lease, fromCache, rfl, ⟨rfl, k, upTo, sees'⟩, leased⟩
  · have total : more (more file k) k' = more file (k + k') := by
      unfold more
      rw [List.append_assoc, List.replicate_append_replicate]
    have limit := bound low
    rw [length_more] at limit
    refine .inr (.inl ⟨r', rfl, same, k + k', by omega, total ▸ sees'⟩)
  · exact .inr (.inr (.inl rfl))
  · exact .inr (.inr (.inr ⟨code, rfl⟩))

theorem Writing.grown {r : Retry} (writing : Writing e file index r c)
    (leased : c.world.Leased index lease) :
    Sees e c (Lib.Pages.grown file index) ∧ index < (Lib.Pages.grown file index).length := by
  obtain ⟨-, k, upTo, sees⟩ := writing
  have inside : index < (more file k).length :=
    sees.whole.length ▸ (List.getElem?_eq_some_iff.mp leased.1).1
  have count : k = index + 1 - file.length := by
    rw [length_more] at inside
    omega
  subst count
  exact ⟨sees, inside⟩

theorem writeTurn_sees {fuel inChunk : Nat} {data : Bytes} {r : Retry} {turn : Turn Unit}
    (writing : Writing e file index r c) (low : index + 1 < 2 ^ 64) (some : data ≠ [])
    (ran : c.writeTurn e.net e.cfg fuel e.path inChunk data r = (Option.some turn, c')) :
    (∃ code, turn = .done (.error code)) ∨ (∃ r', turn = .again r' ∧ Writing e file index r' c') ∨
      turn = .done (.ok ()) ∧ Sees e c' (Lib.Pages.wrote 0 file index inChunk data) := by
  unfold State.writeTurn at ran
  cases first : c.leaseTurn (α := Unit) e.net e.cfg fuel e.path r with
  | mk found c₁ =>
    rw [first] at ran
    rcases writing.leaseTurn low first with ⟨lease, fromCache, rfl, writing₁, leased⟩ |
      ⟨r', rfl, writing₁⟩ | rfl | ⟨code, rfl⟩
    · cases tried : c₁.tryWrite e.net e.cfg lease inChunk data with
      | mk status c₂ =>
        dsimp only at ran
        rw [tried] at ran
        obtain ⟨sees, inside⟩ := writing₁.grown leased
        rcases tryWriteLoop_sees sees leased some tried with ⟨code, rfl, sees₂⟩ | ⟨rfl, sees₂⟩
        · cases failed : c₂.failedTurn (α := Unit) e.path r fromCache code with
          | mk ended c₃ =>
            dsimp only at ran
            rw [failed] at ran
            cases ran
            obtain ⟨sees₃, ⟨code, rfl⟩ | ⟨r', rfl, same⟩⟩ := failedTurn_sees sees₂ failed
            · exact .inl ⟨code, rfl⟩
            · refine .inr (.inl ⟨r', rfl, same.trans writing.here, index + 1 - file.length, ?_, sees₃⟩)
              omega
        · cases ran
          exact .inr (.inr ⟨rfl, sees₂⟩)
    · cases ran
      exact .inr (.inl ⟨r', rfl, writing₁⟩)
    · cases ran
    · cases ran
      exact .inl ⟨code, rfl⟩

theorem writeChunk_sees {fuel inChunk : Nat} {data : Bytes} (sees : Sees e c file)
    (low : index + 1 < 2 ^ 64) (some : data ≠ [])
    (ran : c.writeChunk e.net e.cfg fuel e.path index inChunk data = (Option.some (.ok ()), c')) :
    Sees e c' (Lib.Pages.wrote 0 file index inChunk data) := by
  unfold State.writeChunk at ran
  refine retryLoop_ok (Writing e file index)
    (fun _ c => Sees e c (Lib.Pages.wrote 0 file index inChunk data)) ?_ ?_ ?_ ran
  · intro r c r' c' writing turned
    rcases writeTurn_sees writing low some turned with ⟨code, ⟨⟩⟩ | ⟨r'', ⟨⟩, writing'⟩ | ⟨⟨⟩, -⟩
    exact writing'
  · intro r c v c' writing turned
    rcases writeTurn_sees writing low some turned with ⟨code, ⟨⟩⟩ | ⟨r'', ⟨⟩, -⟩ | ⟨-, sees'⟩
    exact sees'
  · exact ⟨rfl, 0, by omega, more_zero.symm ▸ sees⟩

/-! ## `Write` -/

open Lib.Overlay Lib.Pages in
theorem writeLoop_sees {fuel turns offset pos : Nat} {data bytes : Bytes} (sees : Sees e c file)
    (stands : Stands 0 e.cfg.chunkSize file bytes) (rest : pos < data.length)
    (low : offset + data.length < 2 ^ 64)
    (ran : c.writeLoop e.net e.cfg e.path offset data turns fuel pos = (some (.ok ()), c')) :
    ∃ file', Sees e c' file' ∧
      Stands 0 e.cfg.chunkSize file' (overlay 0 bytes (offset + pos) (data.drop pos)) ∧
      ∀ p, has e.cfg.chunkSize file' p =
        (has e.cfg.chunkSize file p ||
          reaches e.cfg.chunkSize (offset + pos) (offset + data.length) p) := by
  induction fuel generalizing c file bytes pos with
  | zero =>
      unfold State.writeLoop at ran
      rw [if_neg (Nat.not_le.mpr rest)] at ran
      cases ran
  | succ fuel ih =>
      unfold State.writeLoop at ran
      rw [if_neg (Nat.not_le.mpr rest), sees.chunkSize, u64_of_lt (by omega)] at ran
      dsimp only at ran
      generalize size : e.cfg.chunkSize = chunkSize at *
      have positive : 0 < chunkSize := size ▸ e.positive
      have before := Nat.mod_lt (offset + pos) positive
      generalize wanted : min (data.length - pos) (chunkSize - (offset + pos) % chunkSize) = len at ran
      have length : ((data.drop pos).take len).length = len := by
        rw [List.length_take, List.length_drop]
        omega
      have new : (data.drop pos).take len ≠ [] := by
        apply List.ne_nil_of_length_pos
        omega
      have index : (offset + pos) / chunkSize ≤ offset + pos := Nat.div_le_self _ _
      cases wrote : c.writeChunk e.net e.cfg turns e.path ((offset + pos) / chunkSize)
        ((offset + pos) % chunkSize) ((data.drop pos).take len) with
      | mk status c₁ =>
        rw [wrote] at ran
        cases status with
        | none => cases ran
        | some status =>
            cases status with
            | error code => cases ran
            | ok _ =>
                have sees₁ := writeChunk_sees sees (by omega) new wrote
                obtain ⟨stands₁, has₁⟩ := stands.writeAt (offset + pos) new (by omega)
                rw [length] at has₁
                dsimp only at ran
                by_cases last : data.length ≤ pos + len
                · have whole : (data.drop pos).take len = data.drop pos :=
                    List.take_of_length_le (by rw [List.length_drop]; omega)
                  have upTo : offset + pos + len = offset + data.length := by omega
                  unfold State.writeLoop at ran
                  rw [if_pos last] at ran
                  cases ran
                  rw [upTo] at has₁
                  rw [whole] at stands₁ sees₁ has₁
                  exact ⟨_, sees₁, stands₁, has₁⟩
                · have further := Nat.lt_of_not_le last
                  obtain ⟨file', sees', stands', has'⟩ := ih sees₁ stands₁ further ran
                  have more : data.drop (pos + len) ≠ [] := by
                    apply List.ne_nil_of_length_pos
                    rw [List.length_drop]
                    omega
                  have joined := @overlay_append _ 0 bytes _ (offset + pos) _ new more
                  have split : (data.drop pos).take len ++ data.drop (pos + len) = data.drop pos := by
                    rw [← List.drop_drop, List.take_append_drop]
                  rw [length, split, Nat.add_assoc] at joined
                  rw [joined] at stands'
                  refine ⟨file', sees', stands', fun p => ?_⟩
                  rw [has', has₁, Bool.or_assoc, ← Nat.add_assoc, ← reaches_append (by omega) (by omega)]

open Lib.Overlay Lib.Pages in
theorem write_sees {fuel offset : Nat} {data bytes : Bytes} (knows : Knows e c file)
    (stands : Stands 0 e.cfg.chunkSize file bytes) (some : data ≠ [])
    (low : offset + data.length < 2 ^ 64)
    (ran : c.write e.net e.cfg fuel e.path offset data = (Option.some (.ok ()), c')) :
    ∃ file', Knows e c' file' ∧ Stands 0 e.cfg.chunkSize file' (overlay 0 bytes offset data) ∧
      ∀ p, has e.cfg.chunkSize file' p =
        (has e.cfg.chunkSize file p || reaches e.cfg.chunkSize offset (offset + data.length) p) := by
  obtain ⟨c₁, asked, sees⟩ := ensureClusterInfo_sees knows
  unfold State.write at ran
  rw [if_neg some, asked] at ran
  obtain ⟨file', sees', stands', has'⟩ :=
    writeLoop_sees sees stands (List.length_pos_iff.mpr some) low ran
  rw [Nat.add_zero] at stands' has'
  exact ⟨file', sees'.toKnows, stands', has'⟩

/-! ## `RecordAppend` -/

def lastChunk (file : List Bytes) : Bytes := file.getD (file.length - 1) []

def filled (chunkSize : Nat) (file : List Bytes) : List Bytes :=
  file.set (file.length - 1)
    (lastChunk file ++ List.replicate (chunkSize - (lastChunk file).length) 0)

theorem length_filled {chunkSize : Nat} : (filled chunkSize file).length = file.length :=
  List.length_set

theorem lastChunk_filled {chunkSize : Nat} (some : file ≠ []) : lastChunk (filled chunkSize file) =
    lastChunk file ++ List.replicate (chunkSize - (lastChunk file).length) 0 := by
  have inside : file.length - 1 < file.length :=
    Nat.sub_one_lt (List.length_eq_zero_iff.not.mpr some)
  unfold lastChunk
  rw [length_filled, filled, List.getD_eq_getElem?_getD, List.getElem?_set_self inside,
    Option.getD_some]
  rfl

theorem lastChunk_added : lastChunk (file ++ [[]]) = [] := by
  unfold lastChunk
  rw [List.length_append, List.length_singleton, Nat.add_sub_cancel,
    List.getD_append_right _ _ _ _ le_rfl, Nat.sub_self]
  rfl

theorem padded_last {chunkSize : Nat} {data : Bytes} :
    Chunkserver.ChunkStore.padded chunkSize data data.length =
      data ++ List.replicate (chunkSize - data.length) 0 := by
  unfold Chunkserver.ChunkStore.padded
  rw [List.take_length]

theorem filled_full {chunkSize : Nat} (some : file ≠ [])
    (full : chunkSize ≤ (lastChunk file).length) : filled chunkSize file = file := by
  have inside : file.length - 1 < file.length :=
    Nat.sub_one_lt (List.length_eq_zero_iff.not.mpr some)
  unfold filled
  rw [Nat.sub_eq_zero_of_le full, List.replicate_zero, List.append_nil, lastChunk,
    List.getD_eq_getElem _ _ inside, List.set_getElem_self]

theorem filled_filled {chunkSize : Nat} (some : file ≠ []) :
    filled chunkSize (filled chunkSize file) = filled chunkSize file := by
  refine filled_full ?_ ?_
  · intro nothing
    exact some (List.length_eq_zero_iff.mp (length_filled.symm.trans (congrArg _ nothing)))
  · rw [lastChunk_filled some, List.length_append, List.length_replicate]
    omega

/-- What the loop has done to a file that has chunks: nothing, or its last chunk had no room, and
then it is filled up and the loop may be at the one after it. -/
structure Appending (e : Setting) (file : List Bytes) (data : Bytes) (r : Retry) (c : State World) :
    Prop where
  changed : ∃ file', Sees e c file' ∧ r.index + 1 = file'.length ∧
    (file' = file ∨ e.cfg.chunkSize < (lastChunk file).length + data.length ∧
      (file' = filled e.cfg.chunkSize file ∨ file' = filled e.cfg.chunkSize file ++ [[]]))

/-- The file after a record, which has its place at the second value. -/
inductive Appended (chunkSize : Nat) (file : List Bytes) (data : Bytes) : List Bytes → Nat → Prop
  | last (fits : (lastChunk file).length + data.length ≤ chunkSize) :
      Appended chunkSize file data (file.set (file.length - 1) (lastChunk file ++ data))
        (u64 ((file.length - 1) * chunkSize + (lastChunk file).length))
  | next (full : chunkSize < (lastChunk file).length + data.length) (fits : data.length ≤ chunkSize) :
      Appended chunkSize file data (filled chunkSize file ++ [data]) (u64 (file.length * chunkSize))

theorem appendTurn_sees {fuel : Nat} {data : Bytes} {r : Retry} {turn : Turn Nat} (some : file ≠ [])
    (small : file.length + 3 < 2 ^ 64) (short : (lastChunk file).length ≤ e.cfg.chunkSize)
    (fits : data.length ≤ e.cfg.chunkSize) (low : e.cfg.chunkSize + data.length < 2 ^ 64)
    (appending : Appending e file data r c)
    (ran : c.appendTurn e.net e.cfg fuel e.path data r = (Option.some turn, c')) :
    (∃ code, turn = .done (.error code)) ∨ (∃ r', turn = .again r' ∧ Appending e file data r' c') ∨
      ∃ v file', turn = .done (.ok v) ∧ Sees e c' file' ∧ Appended e.cfg.chunkSize file data file' v := by
  obtain ⟨file', sees, at_last, changed⟩ := appending
  have width : file'.length ≤ file.length + 1 := by
    rcases changed with rfl | ⟨-, rfl | rfl⟩
    · omega
    · rw [length_filled]
      omega
    · rw [List.length_append, length_filled, List.length_singleton]
  have shorter : (lastChunk file').length ≤ e.cfg.chunkSize := by
    rcases changed with rfl | ⟨-, rfl | rfl⟩
    · exact short
    · rw [lastChunk_filled some, List.length_append, List.length_replicate]
      omega
    · rw [lastChunk_added]
      exact Nat.zero_le _
  have index : r.index = file'.length - 1 := by omega
  unfold State.appendTurn at ran
  cases first : c.leaseTurn (α := Nat) e.net e.cfg fuel e.path r with
  | mk found c₁ =>
    rw [first] at ran
    rcases leaseTurn_sees sees first with ⟨lease, fromCache, rfl, sees₁, leased⟩ |
      ⟨r', k, rfl, same, sees₁, bound⟩ | rfl | ⟨code, rfl⟩
    · cases tried : c₁.tryAppend e.net e.cfg lease data with
      | mk attempt c₂ =>
        dsimp only at ran
        rw [tried] at ran
        have here : file'.getD r.index [] = lastChunk file' := by rw [index]; rfl
        rcases tryAppendLoop_sees sees₁ leased (by rw [here]; omega) tried with
          ⟨code, rfl, sees₂⟩ | ⟨rfl, full, sees₂⟩ | ⟨rfl, room, sees₂⟩
        · cases failed : c₂.failedTurn (α := Nat) e.path r fromCache code with
          | mk ended c₃ =>
            dsimp only at ran
            rw [failed] at ran
            cases ran
            obtain ⟨sees₃, ⟨code, rfl⟩ | ⟨r', rfl, same⟩⟩ := failedTurn_sees sees₂ failed
            · exact .inl ⟨code, rfl⟩
            · exact .inr (.inl ⟨r', rfl, file', sees₃, by omega, changed⟩)
        · rw [here, padded_last, index] at sees₂
          rw [here] at full
          obtain ⟨sees₂, place, full⟩ : Sees e c₂ (filled e.cfg.chunkSize file) ∧
              r.index + 1 = file.length ∧ e.cfg.chunkSize < (lastChunk file).length + data.length := by
            rcases changed with rfl | ⟨full', rfl | rfl⟩
            · exact ⟨sees₂, at_last, full⟩
            · refine ⟨?_, at_last.trans length_filled, full'⟩
              rw [← filled_filled some]
              exact sees₂
            · rw [lastChunk_added, List.length_nil] at full
              omega
          have next : u64 (r.index + 1) = file.length := by
            rw [place]
            exact u64_of_lt (by omega)
          cases ensured : c₂.ensureChunk e.net fuel e.path (u64 (r.index + 1)) with
          | mk status c₃ =>
            dsimp only at ran
            rw [ensured] at ran
            rw [next] at ensured ran
            obtain ⟨k, sees₃, bounds⟩ := ensureChunk_sees sees₂ ensured
            obtain ⟨upTo, enough, few⟩ := bounds (by omega)
            rw [length_filled] at upTo enough few
            cases status with
            | none => cases ran
            | some status =>
                cases status with
                | ok _ =>
                    have one : k = 1 := by
                      have inside := enough rfl
                      omega
                    subst one
                    cases ran
                    refine .inr (.inl ⟨_, rfl, _, sees₃, ?_, .inr ⟨full, .inr rfl⟩⟩)
                    rw [length_more, length_filled]
                | error code =>
                    have none : k = 0 := by
                      have outside := few code rfl
                      omega
                    subst none
                    rw [more_zero] at sees₃
                    dsimp only at ran
                    by_cases later : isRetryableLater code = true
                    · rw [if_pos later] at ran
                      cases ran
                      exact .inr (.inl ⟨_, rfl, _, sees₃, place.trans length_filled.symm,
                        .inr ⟨full, .inl rfl⟩⟩)
                    · rw [if_neg later] at ran
                      cases ran
                      exact .inl ⟨code, rfl⟩
        · cases ran
          rw [here] at sees₂ room
          refine .inr (.inr ⟨_, _, rfl, sees₂, ?_⟩)
          rw [sees₂.chunkSize, here, index]
          rcases changed with rfl | ⟨full, rfl | rfl⟩
          · exact .last room
          · rw [lastChunk_filled some, List.length_append, List.length_replicate] at room
            omega
          · have set : (filled e.cfg.chunkSize file ++ [[]]).set
                ((filled e.cfg.chunkSize file ++ [[]]).length - 1)
                (lastChunk (filled e.cfg.chunkSize file ++ [[]]) ++ data) =
                filled e.cfg.chunkSize file ++ [data] := by
              rw [lastChunk_added, List.length_append, List.length_singleton, Nat.add_sub_cancel,
                List.set_append_right _ _ le_rfl, Nat.sub_self]
              rfl
            rw [set, lastChunk_added, List.length_append, List.length_singleton, Nat.add_sub_cancel,
              length_filled]
            exact .next full fits
    · have none : k = 0 := by
        have limit := bound (by omega)
        omega
      subst none
      rw [more_zero] at sees₁
      cases ran
      exact .inr (.inl ⟨r', rfl, file', sees₁, by omega, changed⟩)
    · cases ran
    · cases ran
      exact .inl ⟨code, rfl⟩

/-- A record that is longer than a chunk finds no place. -/
structure TooLong (e : Setting) (c : State World) : Prop where
  changed : ∃ file, Sees e c file ∧ ∀ chunk ∈ file, chunk.length ≤ e.cfg.chunkSize

theorem TooLong.turn {fuel : Nat} {data : Bytes} {r : Retry} {turn : Turn Nat}
    (long : e.cfg.chunkSize < data.length) (low : e.cfg.chunkSize + data.length < 2 ^ 64)
    (stuck : TooLong e c) (ran : c.appendTurn e.net e.cfg fuel e.path data r = (some turn, c')) :
    (∃ code, turn = .done (.error code)) ∨ ∃ r', turn = .again r' ∧ TooLong e c' := by
  obtain ⟨file, sees, short⟩ := stuck
  have grows : ∀ {c' : State World} {file : List Bytes} {k : Nat}, Sees e c' (more file k) →
      (∀ chunk ∈ file, chunk.length ≤ e.cfg.chunkSize) → TooLong e c' := by
    intro c' file k sees short
    refine ⟨_, sees, fun chunk member => ?_⟩
    rcases List.mem_append.mp member with old | new
    · exact short chunk old
    · rw [(List.mem_replicate.mp new).2]
      exact Nat.zero_le _
  unfold State.appendTurn at ran
  cases first : c.leaseTurn (α := Nat) e.net e.cfg fuel e.path r with
  | mk found c₁ =>
    rw [first] at ran
    rcases leaseTurn_sees sees first with ⟨lease, fromCache, rfl, sees₁, leased⟩ |
      ⟨r', k, rfl, -, sees₁, -⟩ | rfl | ⟨code, rfl⟩
    · have inside : r.index < file.length :=
        sees₁.whole.length ▸ (List.getElem?_eq_some_iff.mp leased.1).1
      have here : (file.getD r.index []).length ≤ e.cfg.chunkSize := by
        rw [List.getD_eq_getElem _ _ inside]
        exact short _ (List.getElem_mem inside)
      cases tried : c₁.tryAppend e.net e.cfg lease data with
      | mk attempt c₂ =>
        dsimp only at ran
        rw [tried] at ran
        rcases tryAppendLoop_sees sees₁ leased (by omega) tried with
          ⟨code, rfl, sees₂⟩ | ⟨rfl, full, sees₂⟩ | ⟨rfl, room, sees₂⟩
        · cases failed : c₂.failedTurn (α := Nat) e.path r fromCache code with
          | mk ended c₃ =>
            dsimp only at ran
            rw [failed] at ran
            cases ran
            obtain ⟨sees₃, ⟨code, rfl⟩ | ⟨r', rfl, same⟩⟩ := failedTurn_sees sees₂ failed
            · exact .inl ⟨code, rfl⟩
            · exact .inr ⟨r', rfl, file, sees₃, short⟩
        · have short' : ∀ chunk ∈ file.set r.index (Chunkserver.ChunkStore.padded e.cfg.chunkSize
              (file.getD r.index []) (file.getD r.index []).length),
              chunk.length ≤ e.cfg.chunkSize := by
            intro chunk member
            rcases List.mem_or_eq_of_mem_set member with old | rfl
            · exact short chunk old
            · rw [padded_last, List.length_append, List.length_replicate]
              omega
          cases ensured : c₂.ensureChunk e.net fuel e.path (u64 (r.index + 1)) with
          | mk status c₃ =>
            dsimp only at ran
            rw [ensured] at ran
            obtain ⟨k, sees₃, -⟩ := ensureChunk_sees sees₂ ensured
            cases status with
            | none => cases ran
            | some status =>
                cases status with
                | ok _ =>
                    cases ran
                    exact .inr ⟨_, rfl, grows sees₃ short'⟩
                | error code =>
                    dsimp only at ran
                    by_cases later : isRetryableLater code = true
                    · rw [if_pos later] at ran
                      cases ran
                      exact .inr ⟨_, rfl, grows sees₃ short'⟩
                    · rw [if_neg later] at ran
                      cases ran
                      exact .inl ⟨code, rfl⟩
        · omega
    · cases ran
      exact .inr ⟨r', rfl, grows sees₁ short⟩
    · cases ran
    · cases ran
      exact .inl ⟨code, rfl⟩

/-- The file that a record is appended to: a file without chunks gets one. -/
def started (file : List Bytes) : List Bytes := if file = [] then [[]] else file

theorem appendLoop_sees {fuel v : Nat} {data : Bytes} (sees : Sees e c file) (some : file ≠ [])
    (small : file.length + 3 < 2 ^ 64) (short : ∀ chunk ∈ file, chunk.length ≤ e.cfg.chunkSize)
    (low : e.cfg.chunkSize + data.length < 2 ^ 64)
    (ran : State.retryLoop e.cfg (State.appendTurn e.net e.cfg fuel e.path data) fuel
      { index := file.length - 1 } c = (Option.some (.ok v), c')) :
    ∃ file', Sees e c' file' ∧ Appended e.cfg.chunkSize file data file' v := by
  by_cases fits : data.length ≤ e.cfg.chunkSize
  · have inside : file.length - 1 < file.length :=
      Nat.sub_one_lt (List.length_eq_zero_iff.not.mpr some)
    have last : (lastChunk file).length ≤ e.cfg.chunkSize := by
      rw [lastChunk, List.getD_eq_getElem _ _ inside]
      exact short _ (List.getElem_mem inside)
    refine retryLoop_ok (Appending e file data)
      (fun v c => ∃ file', Sees e c file' ∧ Appended e.cfg.chunkSize file data file' v)
      ?_ ?_ ⟨file, sees, Nat.sub_add_cancel (by omega), .inl rfl⟩ ran
    · intro r c r' c' appending turned
      rcases appendTurn_sees some small last fits low appending turned with
        ⟨code, ⟨⟩⟩ | ⟨r'', ⟨⟩, appending'⟩ | ⟨v, file', ⟨⟩, -⟩
      exact appending'
    · intro r c v c' appending turned
      rcases appendTurn_sees some small last fits low appending turned with
        ⟨code, ⟨⟩⟩ | ⟨r'', ⟨⟩, -⟩ | ⟨v, file', ⟨⟩, sees', appended⟩
      exact ⟨file', sees', appended⟩
  · have long := Nat.lt_of_not_le fits
    refine (retryLoop_ok (fun _ c => TooLong e c) (fun _ _ => False)
      ?_ ?_ ⟨file, sees, short⟩ ran).elim
    · intro r c r' c' stuck turned
      rcases stuck.turn long low turned with ⟨code, ⟨⟩⟩ | ⟨r'', ⟨⟩, stuck'⟩
      exact stuck'
    · intro r c v c' stuck turned
      rcases stuck.turn long low turned with ⟨code, ⟨⟩⟩ | ⟨r'', ⟨⟩, -⟩

/-- A record that was appended stands in the last chunk or, where that has no room, in a new one. -/
theorem recordAppend_sees {fuel v : Nat} {data : Bytes} (knows : Knows e c file)
    (small : file.length + 3 < 2 ^ 64) (short : ∀ chunk ∈ file, chunk.length ≤ e.cfg.chunkSize)
    (low : e.cfg.chunkSize + data.length < 2 ^ 64)
    (ran : c.recordAppend e.net e.cfg fuel e.path data = (some (.ok v), c')) :
    ∃ file', Knows e c' file' ∧ Appended e.cfg.chunkSize (started file) data file' v := by
  obtain ⟨c₁, asked, sees₁⟩ := ensureClusterInfo_sees knows
  unfold State.recordAppend at ran
  rw [asked] at ran
  dsimp only at ran
  by_cases long : c₁.maxAppend < data.length
  · rw [if_pos long] at ran
    cases ran
  · obtain ⟨c₂, opened, sees₂⟩ := openFile_sees sees₁
    rw [if_neg long, opened] at ran
    dsimp only at ran
    unfold started
    by_cases empty : file = []
    · subst empty
      rw [if_pos List.length_nil] at ran
      cases ensured : c₂.ensureChunk e.net fuel e.path 0 with
      | mk status c₃ =>
        obtain ⟨k, sees₃, bounds⟩ := ensureChunk_sees sees₂ ensured
        obtain ⟨upTo, enough, -⟩ := bounds (by decide)
        rw [ensured] at ran
        cases status with
        | none => cases ran
        | some status =>
            cases status with
            | error code => cases ran
            | ok _ =>
                have one : k = 1 := by
                  have inside := enough rfl
                  rw [List.length_nil] at upTo inside
                  omega
                subst one
                have sees₃ : Sees e c₃ [[]] := sees₃
                obtain ⟨file', sees', appended⟩ := appendLoop_sees sees₃ (List.cons_ne_nil _ _)
                  (by decide) (by simp) low ran
                rw [if_pos rfl]
                exact ⟨file', sees'.toKnows, appended⟩
    · rw [if_neg (List.length_eq_zero_iff.not.mpr empty)] at ran
      obtain ⟨file', sees', appended⟩ := appendLoop_sees sees₂ empty small short low ran
      rw [if_neg empty]
      exact ⟨file', sees'.toKnows, appended⟩

end Gfs.Client
