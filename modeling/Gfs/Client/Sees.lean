import Gfs.Client.Healthy
import Gfs.Lib.Pages

/-!
# What a client knows of its file

The entries of both caches are about the right chunks, if perhaps at an old version. The calls of
the client keep this, and a chunk is read and written as the list of chunks has it.
-/

namespace Gfs.Client
open World

/-- The caches are right about a file that has these chunks. -/
structure Knows (e : Setting) (c : State World) (file : List Bytes) : Prop where
  whole : c.world.Whole file
  locations : ∀ index chunk expiry, c.locations e.path index = some (chunk, expiry) →
    c.world.Located e index chunk
  leases : ∀ index lease expiry, c.leases e.path index = some (lease, expiry) →
    c.world.Leased index lease
  size : c.infoLoaded = true → c.chunkSize = e.cfg.chunkSize

/-- The client has asked for the chunk size as well. -/
structure Sees (e : Setting) (c : State World) (file : List Bytes) : Prop extends Knows e c file where
  loaded : c.infoLoaded = true

variable {e : Setting} {c c' : State World} {file file' : List Bytes} {index : Nat}

theorem Sees.chunkSize (sees : Sees e c file) : c.chunkSize = e.cfg.chunkSize := sees.size sees.loaded

theorem Sees.move {w : World} (sees : Sees e c file) (onward : Onward c.world w)
    (whole : w.Whole file') : Sees e { c with world := w } file' :=
  ⟨⟨whole, fun index chunk expiry there => (sees.locations index chunk expiry there).onward onward,
    fun index lease expiry there => (sees.leases index lease expiry there).onward onward, sees.size⟩,
    sees.loaded⟩

theorem Sees.tick (sees : Sees e c file) : Sees e { c with world := c.world.tick e } file :=
  sees.move (tick_steady _).onward (sees.whole.steady (tick_steady _))

theorem ensureClusterInfo_sees (knows : Knows e c file) :
    ∃ c', c.ensureClusterInfo e.net = (.ok (), c') ∧ Sees e c' file := by
  unfold State.ensureClusterInfo
  by_cases loaded : c.infoLoaded = true
  · rw [if_pos loaded]
    exact ⟨c, rfl, knows, loaded⟩
  · rw [if_neg loaded]
    have positive : e.cfg.chunkSize ≠ 0 := Nat.pos_iff_ne_zero.mp e.positive
    refine ⟨_, if_neg positive, ⟨knows.whole.steady (tick_steady _),
      fun index chunk expiry there => ?_, fun index lease expiry there => ?_, fun _ => rfl⟩, rfl⟩
    · exact (knows.locations index chunk expiry there).onward (tick_steady _).onward
    · exact (knows.leases index lease expiry there).onward (tick_steady _).onward

theorem openFile_sees (sees : Sees e c file) :
    ∃ c', c.openFile e.net e.path = (.ok file.length, c') ∧ Sees e c' file := by
  refine ⟨_, ?_, sees.tick⟩
  have whole := sees.tick.whole
  unfold State.openFile
  simp [Setting.net, World.openFile, fromGrpc, whole.length]

/-! ## Locations -/

theorem Sees.invalidate (sees : Sees e c file) :
    Sees e { c with locations := c.locations.invalidate e.path index } file := by
  refine ⟨⟨sees.whole, fun other chunk expiry there => ?_, sees.leases, sees.size⟩,
    sees.loaded⟩
  simp only [Cache.invalidate] at there
  split at there
  · cases there
  · exact sees.locations other chunk expiry there

theorem getLocation_sees (sees : Sees e c file) :
    ∃ found c', c.getLocation e.net e.path index = (found, c') ∧ Sees e c' file ∧
      ∀ chunk ∈ found, c'.world.Located e index chunk := by
  unfold State.getLocation
  cases cached : c.locations e.path index with
  | none => exact ⟨none, c, rfl, sees, nofun⟩
  | some entry =>
      obtain ⟨chunk, expiry⟩ := entry
      by_cases past : expiry ≤ (c.world.tick e).clock
      · exact ⟨none, _, if_pos past, sees.tick.invalidate, nofun⟩
      · refine ⟨some chunk, _, if_neg past, sees.tick, ?_⟩
        rintro _ ⟨⟩
        exact (sees.locations index chunk expiry cached).onward (tick_steady _).onward

theorem putLocation_sees {entry : Nat × ChunkInfo} (sees : Sees e c file)
    (located : c.world.Located e entry.1 entry.2) :
    Sees e (c.putLocation e.net e.cfg e.path entry) file ∧
      Onward c.world (c.putLocation e.net e.cfg e.path entry).world := by
  have moved := sees.tick
  have onward : Onward c.world (c.world.tick e) := (tick_steady _).onward
  refine ⟨⟨⟨moved.whole, fun other chunk expiry there => ?_, moved.leases, sees.size⟩,
    sees.loaded⟩, onward⟩
  simp only [State.putLocation, Setting.net, Cache.put] at there
  split at there
  · rename_i same
    cases there
    rw [same.2]
    exact located.onward onward
  · exact moved.locations other chunk expiry there

theorem putLocations_sees (entries : List (Nat × ChunkInfo)) (sees : Sees e c file)
    (located : ∀ entry ∈ entries, c.world.Located e entry.1 entry.2) :
    Sees e (entries.foldl (State.putLocation e.net e.cfg e.path) c) file ∧
      Onward c.world (entries.foldl (State.putLocation e.net e.cfg e.path) c).world := by
  induction entries generalizing c with
  | nil => exact ⟨sees, .refl _⟩
  | cons entry entries ih =>
      obtain ⟨put, onward⟩ := putLocation_sees sees (located entry List.mem_cons_self)
      obtain ⟨all, further⟩ := ih put fun later member =>
        (located later (List.mem_cons_of_mem _ member)).onward onward
      exact ⟨all, onward.trans further⟩

theorem locate_sees (sees : Sees e c file) (small : file.length + 3 < 2 ^ 64) :
    ∃ found c', c.locate e.net e.cfg e.path index = (.ok found, c') ∧ Sees e c' file ∧
      (found = none → file.length ≤ index) ∧ ∀ chunk ∈ found, c'.world.Located e index chunk := by
  obtain ⟨found, c', got, sees', located⟩ : ∃ found c',
    c.getLocation e.net e.path index = (found, c') ∧ _ := getLocation_sees sees
  unfold State.locate
  rw [got]
  cases found with
  | some chunk => exact ⟨_, c', rfl, sees', nofun, located⟩
  | none =>
      have ticked := sees'.tick
      obtain ⟨ok, all, some⟩ :
          ((c'.world.tick e).findLocation e e.path index 4).1 = .ok ∧ _ :=
        findLocation_located ticked.whole small
      obtain ⟨put, onward⟩ := putLocations_sees _ ticked all
      have asked : e.net.findLocation e.path index 4 c'.world =
          ((c'.world.tick e).findLocation e e.path index 4, c'.world.tick e) := rfl
      simp only [asked, ok, fromGrpc]
      refine ⟨_, _, rfl, put, fun missing => ?_, fun chunk member => ?_⟩
      · by_contra inside
        obtain ⟨entry, member, is⟩ := some (Nat.lt_of_not_le inside)
        have there : entry ∈ ((c'.world.tick e).findLocation e e.path index 4).2.filter
            fun entry => entry.1 = index := List.mem_filter.mpr ⟨member, by simpa using is⟩
        rw [Option.map_eq_none_iff, List.getLast?_eq_none_iff] at missing
        rw [missing] at there
        cases there
      · obtain ⟨entry, last, rfl⟩ := Option.map_eq_some_iff.mp member
        obtain ⟨there, is⟩ := List.mem_filter.mp (List.mem_of_getLast? last)
        have is : entry.1 = index := by simpa using is
        have here := (all entry there).onward onward
        rw [is] at here
        exact here

/-! ## Reads -/

def piece (file : List Bytes) (index inChunk want : Nat) : Bytes :=
  ((file.getD index []).drop inChunk).take want

theorem rotated_mem {seed : Nat} {replicas : List Replica} {replica : Replica}
    (member : replica ∈ State.rotated seed replicas) : replica ∈ replicas := by
  obtain ⟨k, -, found⟩ := List.mem_filterMap.mp member
  exact List.mem_of_getElem? found

theorem rotated_ne_nil {seed : Nat} {replicas : List Replica} (some : replicas ≠ []) :
    State.rotated seed replicas ≠ [] := by
  have positive := List.length_pos_iff.mpr some
  intro nothing
  have all := List.filterMap_eq_nil_iff.mp nothing 0 (List.mem_range.mpr positive)
  rw [List.getElem?_eq_none_iff] at all
  exact absurd (Nat.mod_lt _ positive) (Nat.not_lt.mpr all)

theorem rotated_copied {chunk : ChunkInfo} (seed : Nat) (sees : Sees e c file)
    (located : c.world.Located e index chunk) :
    ∃ server rest m, State.rotated seed chunk.replicas = e.replica server :: rest ∧
      server ∈ m.locations.keys ∧ chunk.version ≤ m.version ∧
      (c.world.tick e).Copied chunk.handle m (file.getD index []) := by
  obtain ⟨here, m, found, old, replicas⟩ := located
  have inside : index < file.length := sees.whole.length ▸ (List.getElem?_eq_some_iff.mp here).1
  obtain ⟨handle, m', here', copied⟩ := sees.whole.found inside
  cases here.symm.trans here'
  cases found.symm.trans copied.known
  obtain ⟨m₁, copied₁, version, locations⟩ := (tick_steady c.world).copied copied
  have some : chunk.replicas ≠ [] := by
    rw [replicas]
    intro nothing
    exact copied.someone (List.map_eq_nil_iff.mp nothing)
  cases asked : State.rotated seed chunk.replicas with
  | nil => exact absurd asked (rotated_ne_nil some)
  | cons replica rest =>
      have member : replica ∈ chunk.replicas := rotated_mem (asked ▸ List.mem_cons_self)
      rw [replicas] at member
      obtain ⟨server, there, rfl⟩ := List.mem_map.mp member
      rw [List.getD_eq_getElem _ _ inside]
      exact ⟨server, rest, m₁, rfl, locations ▸ there, version ▸ old, copied₁⟩

theorem readReplicas_sees {chunk : ChunkInfo} {inChunk want seed : Nat} (sees : Sees e c file)
    (located : c.world.Located e index chunk) (short : inChunk + want < 2 ^ 64) :
    ∃ c', c.readReplicas e.net chunk inChunk want (State.rotated seed chunk.replicas) =
      (some (piece file index inChunk want), c') ∧ Sees e c' file := by
  obtain ⟨server, rest, m, asked, member, old, copied⟩ := rotated_copied seed sees located
  have answer := read_copied copied member old short
  have said : e.net.read (e.replica server) chunk.handle chunk.version inChunk want c.world =
      ((.ok, (c.world.tick e).read server chunk.handle chunk.version inChunk want),
        c.world.tick e) := by
    show ((GrpcCode.ok, (c.world.tick e).read (e.replica server).chunkserverId _ _ _ _), _) = _
    rw [e.named]
  refine ⟨_, ?_, sees.tick⟩
  rw [asked]
  unfold State.readReplicas
  rw [said, answer, piece]
  by_cases beyond : (file.getD index []).length < inChunk
  · rw [if_pos beyond, List.drop_eq_nil_of_le (Nat.le_of_lt beyond), List.take_nil]
    rfl
  · rw [if_neg beyond]
    rfl

theorem readChunk_sees {inChunk want : Nat} (sees : Sees e c file)
    (small : file.length + 3 < 2 ^ 64) (short : inChunk + want < 2 ^ 64) :
    ∃ c', c.readChunk e.net e.cfg e.path index inChunk want =
      (.ok (if index < file.length then some (piece file index inChunk want) else none), c') ∧
        Sees e c' file := by
  obtain ⟨found, c₁, located, sees₁, missing, there⟩ : ∃ found c',
    c.locate e.net e.cfg e.path index = (.ok found, c') ∧ _ := locate_sees sees small
  unfold State.readChunk State.readAttempts
  rw [located]
  cases found with
  | none =>
      rw [if_neg (Nat.not_lt.mpr (missing rfl))]
      exact ⟨c₁, rfl, sees₁⟩
  | some chunk =>
      have here := there chunk rfl
      have inside : index < file.length :=
        sees₁.whole.length ▸ (List.getElem?_eq_some_iff.mp here.1).1
      obtain ⟨c₂, answered, sees₂⟩ : ∃ c', c₁.readReplicas e.net chunk inChunk want
        (State.rotated c₁.replicaSeed chunk.replicas) = _ ∧ _ := readReplicas_sees sees₁ here short
      rw [if_pos inside]
      refine ⟨c₂, ?_, sees₂⟩
      dsimp only
      rw [answered]

open Lib.Pages in
/-- The loop of `Read` stops at the first byte that no chunk has. -/
theorem readLoop_sees {stop fuel pos : Nat} {data : Bytes} (sees : Sees e c file)
    (small : file.length + 3 < 2 ^ 64) (low : stop < 2 ^ 64) :
    ∃ result c', c.readLoop e.net e.cfg e.path stop fuel pos data = (result, c') ∧ Sees e c' file ∧
      (stop - pos ≤ fuel →
        result = some (.ok (data ++ readFrom 0 e.cfg.chunkSize file pos (stop - pos)))) := by
  induction fuel generalizing pos data c with
  | zero =>
      unfold State.readLoop
      by_cases done : stop ≤ pos
      · have nothing : stop - pos = 0 := by omega
        rw [if_pos done, nothing]
        exact ⟨_, c, rfl, sees, fun _ => by simp [readFrom, readable]⟩
      · rw [if_neg done]
        exact ⟨_, c, rfl, sees, fun enough => absurd enough (by omega)⟩
  | succ fuel ih =>
      unfold State.readLoop
      by_cases done : stop ≤ pos
      · have nothing : stop - pos = 0 := by omega
        rw [if_pos done, nothing]
        exact ⟨_, c, rfl, sees, fun _ => by simp [readFrom, readable]⟩
      · rw [if_neg done, sees.chunkSize]
        dsimp only
        generalize size : e.cfg.chunkSize = chunkSize
        have positive : 0 < chunkSize := size ▸ e.positive
        have place := Nat.div_add_mod' pos chunkSize
        have before := Nat.mod_lt pos positive
        generalize wanted : min (stop - pos) (chunkSize - pos % chunkSize) = want
        have inside : pos % chunkSize + want ≤ chunkSize := by omega
        have more : stop - pos = want + (stop - pos - want) := by omega
        have page : readFrom 0 chunkSize file pos want =
            piece file (pos / chunkSize) (pos % chunkSize) want := by
          have page : readFrom 0 chunkSize file (pos / chunkSize * chunkSize + pos % chunkSize) want =
              piece file (pos / chunkSize) (pos % chunkSize) want := readFrom_page inside
          rwa [place] at page
        have limit : chunkSize < 2 ^ 64 := size ▸ e.short
        obtain ⟨c₁, read, sees₁⟩ : ∃ c', c.readChunk e.net e.cfg e.path (pos / chunkSize)
          (pos % chunkSize) want = _ ∧ _ := readChunk_sees sees small (by omega)
        rw [read]
        by_cases known : pos / chunkSize < file.length
        · rw [if_pos known]
          dsimp only
          rw [← page]
          by_cases cut : (readFrom 0 chunkSize file pos want).length < want
          · rw [if_pos cut, more, readFrom_short cut]
            exact ⟨_, c₁, rfl, sees₁, fun _ => rfl⟩
          · have full : (readFrom 0 chunkSize file pos want).length = want :=
              Nat.le_antisymm length_readFrom_le (Nat.le_of_not_lt cut)
            have next : u64 (pos + want) = pos + want := u64_of_lt (by omega)
            have rest : stop - (pos + want) = stop - pos - want := by omega
            obtain ⟨result, c₂, read', sees₂, right⟩ := @ih c₁ (pos + want)
              (data ++ readFrom 0 chunkSize file pos want) sees₁
            have whole : readFrom 0 chunkSize file pos (stop - pos) = readFrom 0 chunkSize file pos want ++
                readFrom 0 chunkSize file (pos + want) (stop - pos - want) :=
              (congrArg _ more).trans (readFrom_append full)
            rw [if_neg cut, full, next, read']
            refine ⟨result, c₂, rfl, sees₂, fun enough => ?_⟩
            rw [right (by omega), size, rest, List.append_assoc, whole]
        · have nothing : readFrom 0 chunkSize file pos want = [] := by
            rw [page, piece, Lib.Overlay.getD_beyond (Nat.le_of_not_lt known)]
            simp
          rw [if_neg known, more, readFrom_short (by rw [nothing]; simp; omega), nothing,
            List.append_nil]
          exact ⟨_, c₁, rfl, sees₁, fun _ => rfl⟩

open Lib.Pages in
theorem read_sees {fuel offset length : Nat} (knows : Knows e c file)
    (small : file.length + 3 < 2 ^ 64) :
    Knows e (c.read e.net e.cfg fuel e.path offset length).2 file ∧
      (offset + length < 2 ^ 64 → length ≤ fuel →
        (c.read e.net e.cfg fuel e.path offset length).1 =
          some (.ok (readFrom 0 e.cfg.chunkSize file offset length))) := by
  unfold State.read
  by_cases nothing : length = 0
  · subst nothing
    exact ⟨knows, fun _ _ => rfl⟩
  · obtain ⟨c₁, asked, sees⟩ := ensureClusterInfo_sees knows
    rw [if_neg nothing, asked]
    obtain ⟨result, c₂, read, sees', right⟩ : ∃ result c', c₁.readLoop e.net e.cfg e.path
      (u64 (offset + length)) fuel offset [] = (result, c') ∧ _ :=
      readLoop_sees sees small (Nat.mod_lt _ (by decide))
    dsimp only
    rw [read]
    refine ⟨sees'.toKnows, fun low enough => ?_⟩
    have width : offset + length - offset = length := Nat.add_sub_cancel_left _ _
    rw [u64_of_lt low, width] at right
    exact right enough

/-! ## Lengths -/

theorem askLengths_sees {chunk : ChunkInfo} {seed : Nat} (sees : Sees e c file)
    (located : c.world.Located e index chunk) :
    ∃ c', c.askLengths e.net chunk.handle (State.rotated seed chunk.replicas) =
      (some (file.getD index []).length, c') ∧ Sees e c' file := by
  obtain ⟨server, rest, m, asked, member, -, copied⟩ := rotated_copied seed sees located
  have said : e.net.getChunkLength (e.replica server) chunk.handle c.world =
      ((.ok, (c.world.tick e).getChunkLength server chunk.handle), c.world.tick e) := by
    show ((GrpcCode.ok, (c.world.tick e).getChunkLength (e.replica server).chunkserverId _), _) = _
    rw [e.named]
  refine ⟨_, ?_, sees.tick⟩
  rw [asked]
  unfold State.askLengths
  rw [said, getChunkLength_copied copied member]
  rfl

theorem lengthAttempts_sees (sees : Sees e c file) (small : file.length + 3 < 2 ^ 64)
    (inside : index < file.length) :
    ∃ c', c.lengthAttempts e.net e.cfg e.path index 2 =
      (.ok (u64 (index * e.cfg.chunkSize + (file.getD index []).length)), c') ∧ Sees e c' file := by
  obtain ⟨found, c₁, located, sees₁, missing, there⟩ : ∃ found c',
    c.locate e.net e.cfg e.path index = (.ok found, c') ∧ _ := locate_sees sees small
  unfold State.lengthAttempts
  rw [located]
  cases found with
  | none => exact absurd (missing rfl) (Nat.not_le.mpr inside)
  | some chunk =>
      obtain ⟨c₂, answered, sees₂⟩ : ∃ c', c₁.askLengths e.net chunk.handle
        (State.rotated c₁.replicaSeed chunk.replicas) = _ ∧ _ :=
        askLengths_sees sees₁ (there chunk rfl)
      dsimp only
      rw [answered, ← sees₂.chunkSize]
      exact ⟨c₂, rfl, sees₂⟩

open Lib.Pages in
theorem length_sees (knows : Knows e c file) (small : file.length + 3 < 2 ^ 64)
    (low : extent e.cfg.chunkSize file < 2 ^ 64) :
    ∃ c', c.length e.net e.cfg e.path = (.ok (extent e.cfg.chunkSize file), c') ∧ Knows e c' file := by
  obtain ⟨c₁, asked, sees₁⟩ := ensureClusterInfo_sees knows
  obtain ⟨c₂, opened, sees₂⟩ := openFile_sees sees₁
  unfold State.length
  rw [asked]
  dsimp only
  rw [opened]
  by_cases empty : file.length = 0
  · have nothing := List.length_eq_zero_iff.mp empty
    subst nothing
    exact ⟨c₂, by simp [extent], sees₂.toKnows⟩
  · obtain ⟨c₃, answered, sees₃⟩ : ∃ c', c₂.lengthAttempts e.net e.cfg e.path (file.length - 1) 2 =
      _ ∧ _ := lengthAttempts_sees sees₂ small (Nat.sub_one_lt empty)
    dsimp only
    rw [if_neg empty, answered]
    unfold extent at low ⊢
    rw [u64_of_lt low]
    exact ⟨c₃, rfl, sees₃.toKnows⟩

end Gfs.Client
