import Gfs.Client.Mutations
import Gfs.Lib.Transition

/-!
# A file as a byte array

The calls of one client on one file, and the byte array that they define. `Length` is its length.
`Read` gives what is in it up to the first byte that no chunk has: a gap inside a chunk reads as
zeros, but where a gap goes to the end of its chunk the chunk is short and the read stops.
-/

namespace Gfs.Client.FlatFile
open Lib.Overlay Lib.Pages Lib.Transition

inductive Call
  | write (offset : Nat) (data : Bytes)
  | recordAppend (data : Bytes)
  | read (offset length : Nat)
  | length

/-- The array after a call. A record that does not fit behind the end of the array goes to the next
chunk, and zeros fill up the one before. -/
def Call.replay (chunkSize : Nat) (bytes : Bytes) : Call → Bytes
  | .write offset data => if data = [] then bytes else overlay 0 bytes offset data
  | .recordAppend data =>
      let used := bytes.length % chunkSize
      if used + data.length ≤ chunkSize then bytes ++ data
      else bytes ++ List.replicate (chunkSize - used) 0 ++ data
  | .read _ _ | .length => bytes

/-- What a call stores of the array: its data, and the zeros that fill a chunk up. -/
def Call.stores (chunkSize : Nat) (bytes : Bytes) : Call → List (Nat × Nat)
  | .write offset data => [(offset, offset + data.length)]
  | .recordAppend data => [(bytes.length, (Call.replay chunkSize bytes (.recordAppend data)).length)]
  | .read _ _ | .length => []

/-- Sums that the code forms do not wrap. -/
def Call.Fits (chunkSize : Nat) (bytes : Bytes) (call : Call) : Prop :=
  (call.replay chunkSize bytes).length + 3 < 2 ^ 64 ∧
    ∀ data, call = .recordAppend data → chunkSize + data.length < 2 ^ 64

structure Session where
  client : State World
  bytes : Bytes := []
  stored : List (Nat × Nat) := []

namespace Session

/-- A byte at `p` or behind it was stored in the chunk of `p`. -/
def covers (chunkSize : Nat) (s : Session) (p : Nat) : Bool :=
  s.stored.any fun range => reaches chunkSize range.1 range.2 p

def replay (e : Setting) (s : Session) (client : State World) (call : Call) : Session where
  client
  bytes := call.replay e.cfg.chunkSize s.bytes
  stored := call.stores e.cfg.chunkSize s.bytes ++ s.stored

/-- A write or a record append returns OK; the loops of a call take `fuel` for their turns. -/
def step (e : Setting) (s : Session) : Nat × Call → Option Session
  | (fuel, .write offset data) =>
      match s.client.write e.net e.cfg fuel e.path offset data with
      | (some (.ok ()), client) => some (s.replay e client (.write offset data))
      | _ => none
  | (fuel, .recordAppend data) =>
      match s.client.recordAppend e.net e.cfg fuel e.path data with
      | (some (.ok _), client) => some (s.replay e client (.recordAppend data))
      | _ => none
  | (fuel, .read offset length) =>
      some (s.replay e (s.client.read e.net e.cfg fuel e.path offset length).2 (.read offset length))
  | (_, .length) => some (s.replay e (s.client.length e.net e.cfg e.path).2 .length)

/-- The file is empty and nothing has been said about it to the client. -/
structure Initial (e : Setting) (s : Session) : Prop where
  empty : s.client.world.file = []
  unused : ∀ handle, s.client.world.nextHandle ≤ handle → s.client.world.chunks handle = none ∧
    ∀ server, (s.client.world.servers server).entries handle = none ∧
      (s.client.world.servers server).slots handle = none
  unlocated : ∀ index, s.client.locations e.path index = none
  unleased : ∀ index, s.client.leases e.path index = none
  size : s.client.infoLoaded = true → s.client.chunkSize = e.cfg.chunkSize
  bytes : s.bytes = []
  stored : s.stored = []

structure Holds (e : Setting) (s : Session) : Prop where
  chunks : ∃ file, Knows e s.client file ∧ Stands 0 e.cfg.chunkSize file s.bytes ∧
    ∀ p, has e.cfg.chunkSize file p = s.covers e.cfg.chunkSize p
  small : s.bytes.length + 3 < 2 ^ 64

variable {e : Setting} {s s' : Session}

theorem Initial.holds (initial : Initial e s) : Holds e s := by
  have whole : s.client.world.Whole [] := by
    refine ⟨by rw [initial.empty]; rfl, by rw [initial.empty]; exact List.nodup_nil, ?_,
      initial.unused, ?_⟩
    · rw [initial.empty]
      exact fun _ member => absurd member List.not_mem_nil
    · intro i handle data _ found
      cases found
  refine ⟨⟨[], ⟨whole, ?_, ?_, initial.size⟩, ?_, fun p => ?_⟩, ?_⟩
  · intro index chunk expiry there
    rw [initial.unlocated] at there
    cases there
  · intro index lease expiry there
    rw [initial.unleased] at there
    cases there
  · rw [initial.bytes]
    exact .nil
  · unfold covers
    rw [initial.stored]
    simp [has]
  · rw [initial.bytes]
    decide

theorem covers_replay {client : State World} {call : Call} {p : Nat} :
    (s.replay e client call).covers e.cfg.chunkSize p =
      ((call.stores e.cfg.chunkSize s.bytes).any (fun range =>
        reaches e.cfg.chunkSize range.1 range.2 p) || s.covers e.cfg.chunkSize p) := List.any_append

theorem Holds.write {fuel offset : Nat} {data : Bytes} (holds : Holds e s)
    (fits : Call.Fits e.cfg.chunkSize s.bytes (.write offset data))
    (taken : step e s (fuel, .write offset data) = some s') : Holds e s' := by
  obtain ⟨⟨file, knows, stands, there⟩, small⟩ := holds
  simp only [step] at taken
  split at taken
  · rename_i client wrote
    cases taken
    by_cases nothing : data = []
    · subst nothing
      unfold State.write at wrote
      rw [if_pos rfl] at wrote
      cases wrote
      refine ⟨⟨file, knows, stands, fun p => ?_⟩, small⟩
      rw [there, covers_replay]
      simp [Call.stores, reaches_nothing]
    · have length := fits.1
      simp only [Call.replay, if_neg nothing, length_overlay nothing] at length
      obtain ⟨file', knows', stands', there'⟩ := write_sees knows stands nothing (by omega) wrote
      refine ⟨⟨file', knows', ?_, fun p => ?_⟩, fits.1⟩
      · unfold replay Call.replay
        simp only [if_neg nothing]
        exact stands'
      · rw [there', there, covers_replay, Bool.or_comm]
        simp [Call.stores]
  · cases taken

/-- A file without chunks and one with an empty chunk are the same. -/
theorem stands_started {chunkSize : Nat} {file : List Bytes} {bytes : Bytes}
    (stands : Stands 0 chunkSize file bytes) : started file ≠ [] ∧
      Stands 0 chunkSize (started file) bytes ∧
      ∀ p, has chunkSize (started file) p = has chunkSize file p := by
  unfold started
  by_cases empty : file = []
  · subst empty
    have nothing : bytes = [] := List.length_eq_zero_iff.mp (stands.length.trans (by simp [extent]))
    subst nothing
    rw [if_pos rfl]
    refine ⟨List.cons_ne_nil _ _, .first, fun p => ?_⟩
    unfold has
    cases p / chunkSize <;> simp
  · rw [if_neg empty]
    exact ⟨empty, stands, fun _ => rfl⟩

theorem appended_stands {chunkSize v : Nat} {file file' : List Bytes} {bytes data : Bytes}
    (positive : 0 < chunkSize) (stands : Stands 0 chunkSize file bytes) (some : file ≠ [])
    (appended : Appended chunkSize file data file' v) :
    let after := Call.replay chunkSize bytes (.recordAppend data)
    Stands 0 chunkSize file' after ∧ v = u64 (after.length - data.length) ∧
      ∀ p, has chunkSize file' p =
        (has chunkSize file p || reaches chunkSize bytes.length after.length p) := by
  have ends := stands.length
  have short : (lastChunk file).length ≤ chunkSize := stands.short_getD _
  have used : bytes.length % chunkSize = (lastChunk file).length % chunkSize := by
    rw [ends, extent, Nat.mul_comm, Nat.mul_add_mod]
    rfl
  cases appended with
  | last fits =>
      have replayed : Call.replay chunkSize bytes (.recordAppend data) = bytes ++ data := by
        unfold Call.replay
        have less := Nat.mod_le (lastChunk file).length chunkSize
        exact if_pos (by omega)
      obtain ⟨stands', there⟩ := stands.appendLast some fits
      dsimp only
      rw [replayed]
      refine ⟨stands', ?_, fun p => ?_⟩
      · rw [List.length_append, Nat.add_sub_cancel, ends]
        rfl
      · rw [List.length_append]
        exact there p
  | next full fits =>
      have replayed : Call.replay chunkSize bytes (.recordAppend data) =
          bytes ++ List.replicate (chunkSize - (lastChunk file).length) 0 ++ data := by
        unfold Call.replay
        by_cases full : (lastChunk file).length = chunkSize
        · rw [full, Nat.mod_self] at used
          dsimp only
          rw [if_pos (by omega), full, Nat.sub_self, List.replicate_zero, List.append_nil]
        · have less : (lastChunk file).length % chunkSize = (lastChunk file).length :=
            Nat.mod_eq_of_lt (by omega)
          rw [less] at used
          dsimp only
          rw [used, if_neg (by omega)]
      have room : (file.getD (file.length - 1) []).length +
          (List.replicate (chunkSize - (lastChunk file).length) (0 : UInt8)).length ≤ chunkSize := by
        rw [List.length_replicate]
        exact (Nat.add_sub_of_le short).le
      obtain ⟨stands₁, there₁⟩ : Stands 0 chunkSize (filled chunkSize file) _ ∧
        ∀ p, has chunkSize (filled chunkSize file) p = _ := stands.appendLast some room
      have inside := List.length_pos_iff.mpr some
      have full : (bytes ++ List.replicate (chunkSize - (lastChunk file).length) 0).length =
          (filled chunkSize file).length * chunkSize := by
        have split : file.length * chunkSize = (file.length - 1) * chunkSize + chunkSize := by
          rw [← Nat.add_one_mul, Nat.sub_add_cancel inside]
        rw [extent] at ends
        rw [List.length_append, List.length_replicate, length_filled, split, ends, lastChunk,
          Nat.add_assoc]
        congr 1
        exact Nat.add_sub_of_le short
      have record : data ≠ [] := by
        apply List.ne_nil_of_length_pos
        omega
      obtain ⟨stands₂, there₂⟩ := stands₁.appendPage full positive record fits
      dsimp only
      rw [replayed]
      refine ⟨stands₂, ?_, fun p => ?_⟩
      · rw [List.length_append, Nat.add_sub_cancel, full, length_filled]
      · have whole := @reaches_append chunkSize bytes.length
          (bytes ++ List.replicate (chunkSize - (lastChunk file).length) 0).length
          (bytes ++ List.replicate (chunkSize - (lastChunk file).length) 0 ++ data).length p
          (List.prefix_append _ _).length_le (List.prefix_append _ _).length_le
        rw [there₂, there₁, Bool.or_assoc, whole]
        simp only [List.length_append]

theorem Holds.recordAppend {fuel : Nat} {data : Bytes} (holds : Holds e s)
    (fits : Call.Fits e.cfg.chunkSize s.bytes (.recordAppend data))
    (taken : step e s (fuel, .recordAppend data) = some s') : Holds e s' := by
  obtain ⟨⟨file, knows, stands, there⟩, small⟩ := holds
  simp only [step] at taken
  split at taken
  · rename_i v client appended
    cases taken
    have count := stands.pages_le e.positive
    obtain ⟨file', knows', placed⟩ :=
      recordAppend_sees knows (by omega) stands.short (fits.2 data rfl) appended
    obtain ⟨some, stands₁, there₁⟩ := stands_started stands
    obtain ⟨stands', -, there'⟩ := appended_stands e.positive stands₁ some placed
    refine ⟨⟨file', knows', stands', fun p => ?_⟩, fits.1⟩
    rw [there', there₁, there, covers_replay, Bool.or_comm]
    simp [Call.stores]
  · cases taken

theorem Holds.read {fuel offset length : Nat} (holds : Holds e s)
    (taken : step e s (fuel, .read offset length) = some s') : Holds e s' := by
  obtain ⟨⟨file, knows, stands, there⟩, small⟩ := holds
  cases taken
  have count := stands.pages_le e.positive
  have knows' := (@read_sees e _ file fuel offset length knows (by omega)).1
  exact ⟨⟨file, knows', stands, there⟩, small⟩

theorem Holds.length_ok (holds : Holds e s) :
    ∃ c', s.client.length e.net e.cfg e.path = (.ok s.bytes.length, c') ∧
      Holds e { s with client := c' } := by
  obtain ⟨⟨file, knows, stands, there⟩, small⟩ := holds
  have count := stands.pages_le e.positive
  have low : extent e.cfg.chunkSize file < 2 ^ 64 := stands.length ▸ (by omega)
  obtain ⟨c', asked, knows'⟩ := length_sees knows (by omega) low
  rw [stands.length]
  exact ⟨c', asked, ⟨file, knows', stands, there⟩, small⟩

theorem Holds.step {a : Nat × Call} (holds : Holds e s) (fits : a.2.Fits e.cfg.chunkSize s.bytes)
    (taken : step e s a = some s') : Holds e s' := by
  obtain ⟨fuel, call⟩ := a
  cases call with
  | write offset data => exact holds.write fits taken
  | recordAppend data => exact holds.recordAppend fits taken
  | read offset length => exact holds.read taken
  | length =>
      obtain ⟨c', asked, holds'⟩ := holds.length_ok
      simp only [Session.step, asked, Option.some.injEq] at taken
      subst taken
      exact holds'

/-- The sessions in which no sum wraps. -/
abbrev Reached (e : Setting) : Session → Prop :=
  Reachable (Session.step e) (Initial e) fun s a => a.2.Fits e.cfg.chunkSize s.bytes

theorem Reached.holds (reached : Reached e s) : Holds e s :=
  reached.invariant (fun _ initial => initial.holds) fun _ _ _ holds fits taken =>
    holds.step fits taken

/-- What a read gets: the bytes up to the first one that no chunk has. -/
theorem Holds.read_ok {fuel offset length : Nat} (holds : Holds e s)
    (low : offset + length < 2 ^ 64) (enough : length ≤ fuel) :
    ∃ file, Stands 0 e.cfg.chunkSize file s.bytes ∧
      (∀ p, has e.cfg.chunkSize file p = s.covers e.cfg.chunkSize p) ∧
      (s.client.read e.net e.cfg fuel e.path offset length).1 =
        some (.ok (readFrom 0 e.cfg.chunkSize file offset length)) := by
  obtain ⟨⟨file, knows, stands, there⟩, small⟩ := holds
  have count := stands.pages_le e.positive
  exact ⟨file, stands, there, (read_sees knows (by omega)).2 low enough⟩

/-- The calls show the array just where the chunks have all of it. -/
theorem flat_iff {fuel offset length : Nat} (reached : Reached e s)
    (low : offset + length < 2 ^ 64) (enough : length ≤ fuel) :
    ((s.client.length e.net e.cfg e.path).1 = .ok s.bytes.length ∧
        (s.client.read e.net e.cfg fuel e.path offset length).1 =
          some (.ok ((s.bytes.drop offset).take length))) ↔
      ∀ p, offset ≤ p → p < min (offset + length) s.bytes.length →
        s.covers e.cfg.chunkSize p = true := by
  have holds := Reached.holds reached
  obtain ⟨c', asked, -⟩ := holds.length_ok
  obtain ⟨file, stands, there, read⟩ := holds.read_ok low enough
  rw [asked, read]
  simp only [true_and, Option.some.injEq, Except.ok.injEq, ← there]
  exact stands.readFrom_iff

end Session

/-- Chunks of four bytes on two chunkservers. -/
def fourBytes : Setting where
  cfg := { chunkSize := 4 }
  maxAppend := 4
  path := ['/', 'f']
  chooses _ := [['a'], ['b']]
  replica server := ⟨server, server, []⟩
  passes _ := 5
  beats _ := []
  positive := by decide
  short := by decide
  named _ := rfl

def opened : Session where
  client := { world := { clock := 0, servers := fun _ => { buffer := { capacity := 10 } } } }

theorem opened_initial : Session.Initial fourBytes opened :=
  ⟨rfl, fun _ _ => ⟨rfl, fun _ => ⟨rfl, rfl⟩⟩, fun _ => rfl, fun _ => rfl, nofun, rfl, rfl⟩

instance (chunkSize : Nat) (bytes : Bytes) : (call : Call) → Decidable (call.Fits chunkSize bytes)
  | .recordAppend data =>
      decidable_of_iff ((Call.replay chunkSize bytes (.recordAppend data)).length + 3 < 2 ^ 64 ∧
        chunkSize + data.length < 2 ^ 64) (by simp [Call.Fits])
  | .write offset data =>
      decidable_of_iff ((Call.replay chunkSize bytes (.write offset data)).length + 3 < 2 ^ 64)
        (by simp [Call.Fits])
  | .read offset length =>
      decidable_of_iff ((Call.replay chunkSize bytes (.read offset length)).length + 3 < 2 ^ 64)
        (by simp [Call.Fits])
  | .length =>
      decidable_of_iff ((Call.replay chunkSize bytes .length).length + 3 < 2 ^ 64)
        (by simp [Call.Fits])

/-- After one byte in the third chunk a read from the start gets nothing, and the length is nine. -/
theorem flat_fails : ∃ s, Session.Reached fourBytes s ∧ s.bytes = [0, 0, 0, 0, 0, 0, 0, 0, 1] ∧
    (s.client.length fourBytes.net fourBytes.cfg fourBytes.path).1 = .ok 9 ∧
    (s.client.read fourBytes.net fourBytes.cfg 9 fourBytes.path 0 9).1 = some (.ok []) := by
  obtain ⟨s, ran⟩ := Option.isSome_iff_exists.mp
    (by decide +kernel : (run (Session.step fourBytes) opened [(9, .write 8 [1])]).isSome = true)
  have last : (run (Session.step fourBytes) opened [(9, .write 8 [1])]).map (fun s =>
      (s.bytes, (s.client.length fourBytes.net fourBytes.cfg fourBytes.path).1,
        (s.client.read fourBytes.net fourBytes.cfg 9 fourBytes.path 0 9).1)) =
      some ([0, 0, 0, 0, 0, 0, 0, 0, 1], .ok 9, some (.ok [])) := by decide +kernel
  simp only [ran, Option.map_some, Option.some.injEq, Prod.mk.injEq] at last
  exact ⟨s, reachable_run opened_initial (by decide +kernel) ran, last⟩

/-- A write across two chunks, a record behind it and one that goes to the next chunk. -/
def filling : List (Nat × Call) :=
  [(9, .write 2 [1, 2, 3]), (9, .length), (9, .recordAppend [4, 5]), (9, .read 0 9),
    (9, .recordAppend [6, 7])]

theorem flat_filling : ∃ s, run (Session.step fourBytes) opened filling = some s ∧
    s.bytes = [0, 0, 1, 2, 3, 4, 5, 0, 6, 7] ∧
    (s.client.length fourBytes.net fourBytes.cfg fourBytes.path).1 = .ok s.bytes.length ∧
    (s.client.read fourBytes.net fourBytes.cfg 12 fourBytes.path 0 12).1 =
      some (.ok ((s.bytes.drop 0).take 12)) := by
  obtain ⟨s, ran⟩ := Option.isSome_iff_exists.mp
    (by decide +kernel : (run (Session.step fourBytes) opened filling).isSome = true)
  have last : (run (Session.step fourBytes) opened filling).map (fun s => (s.bytes, s.stored)) =
      some ([0, 0, 1, 2, 3, 4, 5, 0, 6, 7], [(7, 10), (5, 7), (2, 5)]) := by decide +kernel
  simp only [ran, Option.map_some, Option.some.injEq, Prod.mk.injEq] at last
  obtain ⟨bytes, stored⟩ := last
  have reached : Session.Reached fourBytes s :=
    reachable_run opened_initial (by decide +kernel) ran
  have covered : ∀ p, 0 ≤ p → p < min (0 + 12) s.bytes.length →
      s.covers fourBytes.cfg.chunkSize p = true := by
    intro p _ below
    rw [bytes] at below
    unfold Session.covers
    rw [stored]
    revert p
    decide
  exact ⟨s, ran, bytes, (Session.flat_iff reached (by decide) le_rfl).mpr covered⟩

end Gfs.Client.FlatFile
