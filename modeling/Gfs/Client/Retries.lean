import Gfs.Client.Model
import Mathlib.Data.Set.Basic

/-!
# The retry loops of a client

A turn of `WriteChunk` or `RecordAppend` that does not return uses up a count of `outer`, the one
`EnsureChunk` or a cached lease, unless a primary has answered `RETRY_NEXT_CHUNK`. That answer
starts the counts again, or costs nothing at all when no chunk can be added: each of them has to be
paid for by a chunk that is added, and the ones that are not are counted as wasted.
-/

namespace Gfs.Client

/-- How often `AddChunk` has succeeded and a chunk was full. A client starves from a full chunk
until one is added, and a full chunk is wasted on a client that starves. -/
structure Counts where
  added : Nat
  full : Nat
  wasted : Nat
  starving : Bool
  paid : full + (if starving then 0 else 1) ≤ added + wasted + 1
  wasted_le : wasted ≤ full

namespace Counts

def start : Counts := ⟨0, 0, 0, false, Nat.le_refl _, Nat.le_refl _⟩

def add (n : Counts) : Counts where
  added := n.added + 1
  full := n.full
  wasted := n.wasted
  starving := false
  paid := by
    have paid := n.paid
    split at paid <;> simp <;> omega
  wasted_le := n.wasted_le

def fill (n : Counts) : Counts where
  added := n.added
  full := n.full + 1
  wasted := if n.starving then n.wasted + 1 else n.wasted
  starving := true
  paid := by
    have paid := n.paid
    cases starving : n.starving <;> simp [starving] at paid ⊢ <;> omega
  wasted_le := by
    have wasted := n.wasted_le
    split <;> omega

variable {n : Counts}

@[simp] theorem add_added : n.add.added = n.added + 1 := rfl

@[simp] theorem add_full : n.add.full = n.full := rfl

@[simp] theorem fill_added : n.fill.added = n.added := rfl

@[simp] theorem fill_full : n.fill.full = n.full + 1 := rfl

theorem full_le (n : Counts) : n.full ≤ n.added + n.wasted + 1 :=
  Nat.le_trans (Nat.le_add_right _ _) n.paid

end Counts

def Net.counted {ω : Type} (net : Net ω) : Net (ω × Counts) where
  now w := ((net.now w.1).1, (net.now w.1).2, w.2)
  getClusterInfo w := ((net.getClusterInfo w.1).1, (net.getClusterInfo w.1).2, w.2)
  openFile path w := ((net.openFile path w.1).1, (net.openFile path w.1).2, w.2)
  addChunk path index w :=
    let answer := net.addChunk path index w.1
    (answer.1, answer.2,
      if answer.1.1 = .ok ∧ answer.1.2 = .ok then w.2.add else w.2)
  findLocation path index count w :=
    ((net.findLocation path index count w.1).1, (net.findLocation path index count w.1).2, w.2)
  findLeaseHolder path index w :=
    ((net.findLeaseHolder path index w.1).1, (net.findLeaseHolder path index w.1).2, w.2)
  pushData lease clientId sequence data w :=
    ((net.pushData lease clientId sequence data w.1).1,
      (net.pushData lease clientId sequence data w.1).2, w.2)
  write replica mutation inChunk w :=
    ((net.write replica mutation inChunk w.1).1, (net.write replica mutation inChunk w.1).2, w.2)
  recordAppend replica mutation w :=
    let answer := net.recordAppend replica mutation w.1
    (answer.1, answer.2,
      if answer.1.1 = .ok ∧ answer.1.2.1 = .retryNextChunk then w.2.fill else w.2)
  read replica handle version offset length w :=
    ((net.read replica handle version offset length w.1).1,
      (net.read replica handle version offset length w.1).2, w.2)
  getChunkLength replica handle w :=
    ((net.getChunkLength replica handle w.1).1, (net.getChunkLength replica handle w.1).2, w.2)

namespace State

section
variable {ω : Type} {net : Net ω} {cfg : Config} {path : Str} {c c' : State (ω × Counts)}
  {r r' : Retry} {index fuel : Nat} {data : Bytes} {lease : Lease}

def counts (c : State (ω × Counts)) : Counts := c.world.2

def cached (c : State (ω × Counts)) (path : Str) (index : Nat) : Nat :=
  if (c.leases path index).isSome then 1 else 0

theorem cached_le : c.cached path index ≤ 1 := by
  unfold cached
  split <;> omega

/-- What a call leaves of the counts and of the leases. -/
structure Calm (c c' : State (ω × Counts)) : Prop where
  added : c.counts.added ≤ c'.counts.added
  full : c'.counts.full = c.counts.full
  leases : c'.leases = c.leases

theorem Calm.refl : Calm c c := ⟨Nat.le_refl _, rfl, rfl⟩

theorem Calm.trans {c'' : State (ω × Counts)} (first : Calm c c') (second : Calm c' c'') :
    Calm c c'' :=
  ⟨Nat.le_trans first.added second.added, second.full.trans first.full,
    second.leases.trans first.leases⟩

theorem fromGrpc_ok {grpc : GrpcCode} (ok : fromGrpc grpc = .ok ()) : grpc = .ok := by
  cases grpc <;> first | rfl | cases ok

theorem fromResultCode_ok {code : ResultCode} (ok : fromResultCode code = .ok ()) :
    code = .ok := by
  cases code <;> first | rfl | cases ok

/-- `AddChunk` succeeds in each turn of the loop but the last. -/
theorem addChunks_calm {next : Nat} {result : Option Status}
    (ran : c.addChunks net.counted path index fuel next = (result, c')) :
    Calm c c' ∧ (result = none → c.counts.added + fuel ≤ c'.counts.added) := by
  induction fuel generalizing next c with
  | zero =>
      unfold addChunks at ran
      split at ran
      · cases ran
        exact ⟨.refl, nofun⟩
      · cases ran
        exact ⟨.refl, fun _ => Nat.le_refl _⟩
  | succ fuel ih =>
      unfold addChunks at ran
      split at ran
      · cases ran
        exact ⟨.refl, nofun⟩
      · have calm : Calm c { c with world := (net.counted.addChunk path next c.world).2 } := by
          refine ⟨?_, ?_, rfl⟩ <;> simp only [counts, Net.counted] <;> split <;> simp
        dsimp only at ran
        split at ran
        · cases ran
          exact ⟨calm, nofun⟩
        · cases ran
          exact ⟨calm, nofun⟩
        · rename_i grpc code
          obtain ⟨rest, more⟩ := ih ran
          refine ⟨calm.trans rest, fun none => ?_⟩
          have counted : State.counts { c with
              world := (net.counted.addChunk path next c.world).2 } = c.counts.add :=
            if_pos ⟨fromGrpc_ok grpc, fromResultCode_ok code⟩
          have enough := more none
          rw [counted] at enough
          calc c.counts.added + (fuel + 1) = c.counts.add.added + fuel := by
                rw [Counts.add_added]
                omega
            _ ≤ _ := enough

theorem ensureChunk_calm {result : Option Status}
    (ran : c.ensureChunk net.counted fuel path index = (result, c')) :
    Calm c c' ∧ (result = none → c.counts.added + fuel ≤ c'.counts.added) := by
  have calm : Calm c (c.openFile net.counted path).2 := ⟨Nat.le_refl _, rfl, rfl⟩
  unfold ensureChunk at ran
  split at ran
  · rename_i opened
    rw [opened] at calm
    cases ran
    exact ⟨calm, nofun⟩
  · rename_i opened
    rw [opened] at calm
    obtain ⟨rest, more⟩ := addChunks_calm ran
    exact ⟨calm.trans rest,
      fun none => Nat.le_trans (Nat.add_le_add_right calm.added _) (more none)⟩

theorem getLease_cases {result : Option Lease}
    (ran : c.getLease net.counted path index = (result, c')) : c'.counts = c.counts ∧
      (result = none ∧ c'.cached path index = 0 ∨
        (∃ lease, result = some lease) ∧ c.cached path index = 1) := by
  unfold getLease at ran
  split at ran
  · rename_i absent
    cases ran
    exact ⟨rfl, .inl ⟨rfl, by simp [cached, absent]⟩⟩
  · rename_i found
    dsimp only at ran
    split at ran
    · cases ran
      exact ⟨rfl, .inl ⟨rfl, by simp [cached, Cache.invalidate]⟩⟩
    · cases ran
      exact ⟨rfl, .inr ⟨⟨_, rfl⟩, by simp [cached, found]⟩⟩

theorem findLease_cases {result : Except ErrorCode (Lease × Bool)}
    (ran : c.findLease net.counted cfg path index = (result, c')) : c'.counts = c.counts ∧
      ((∃ code, result = .error code ∧ c'.cached path index = 0) ∨
        (∃ lease, result = .ok (lease, false)) ∨
        ∃ lease, result = .ok (lease, true) ∧ c.cached path index = 1) := by
  unfold findLease at ran
  split at ran
  · rename_i lease c₁ got
    obtain ⟨same, ⟨none, -⟩ | ⟨-, one⟩⟩ := getLease_cases got
    · cases none
    · cases ran
      exact ⟨same, .inr (.inr ⟨lease, rfl, one⟩)⟩
  · rename_i c₁ got
    obtain ⟨same, ⟨-, zero⟩ | ⟨⟨_, some⟩, -⟩⟩ := getLease_cases got
    · dsimp only at ran
      split at ran
      · cases ran
        exact ⟨same, .inl ⟨_, rfl, zero⟩⟩
      · cases ran
        exact ⟨same, .inl ⟨_, rfl, zero⟩⟩
      · cases ran
        exact ⟨same, .inr (.inl ⟨_, rfl⟩)⟩
    · cases some

theorem pushData_calm {sequence : Nat} {result : Status}
    (ran : c.pushData net.counted lease sequence data = (result, c')) : Calm c c' := by
  cases ran
  exact ⟨Nat.le_refl _, rfl, rfl⟩

theorem tryWriteLoop_calm {inChunk inner : Nat} {last : ErrorCode} {result : Status}
    (ran : c.tryWriteLoop net.counted lease inChunk data inner last = (result, c')) :
    Calm c c' := by
  induction inner generalizing last c with
  | zero =>
      cases ran
      exact .refl
  | succ inner ih =>
      unfold tryWriteLoop at ran
      dsimp only at ran
      split at ran
      · rename_i pushed
        cases ran
        have calm := pushData_calm pushed
        exact ⟨calm.added, calm.full, calm.leases⟩
      · rename_i c₁ pushed
        have calm := pushData_calm pushed
        have answered : Calm c { c₁ with world := (net.counted.write lease.primary
            (c₁.mutation lease c.sequence) inChunk c₁.world).2 } :=
          ⟨calm.added, calm.full, calm.leases⟩
        split at ran
        · cases ran
          exact answered
        · exact answered.trans (ih ran)
        · exact answered.trans (ih ran)
        · cases ran
          exact answered

/-- The counts and leases after a `TryAppend`: a full chunk is counted. -/
structure Tried (c c' : State (ω × Counts)) (full : Prop) [Decidable full] : Prop where
  added : c.counts.added ≤ c'.counts.added
  full : c'.counts.full = c.counts.full + if full then 1 else 0
  leases : c'.leases = c.leases

theorem Tried.full_le {full : Prop} [Decidable full] (tried : Tried c c' full) :
    c'.counts.full ≤ c.counts.full + 1 := by
  rw [tried.full]
  split <;> omega

theorem tryAppendLoop_tried {inner : Nat} {last : ErrorCode} {result : Attempt}
    (ran : c.tryAppendLoop net.counted lease data inner last = (result, c')) :
    Tried c c' (result = .nextChunk) := by
  induction inner generalizing last c with
  | zero =>
      cases ran
      exact ⟨Nat.le_refl _, rfl, rfl⟩
  | succ inner ih =>
      unfold tryAppendLoop at ran
      dsimp only at ran
      split at ran
      · rename_i pushed
        cases ran
        have calm := pushData_calm pushed
        exact ⟨calm.added, calm.full, calm.leases⟩
      · rename_i c₁ pushed
        have calm := pushData_calm pushed
        generalize answered : { c₁ with world := (net.counted.recordAppend lease.primary
            (c₁.mutation lease c.sequence) c₁.world).2 } = c₂ at ran
        have after : Tried c c₂ ((net.counted.recordAppend lease.primary
            (c₁.mutation lease c.sequence) c₁.world).1.1 = .ok ∧ (net.counted.recordAppend
            lease.primary (c₁.mutation lease c.sequence) c₁.world).1.2.1 = .retryNextChunk) := by
          subst answered
          refine ⟨Nat.le_trans calm.added ?_, ?_, calm.leases⟩
          · simp only [counts, Net.counted]
            split <;> simp
          · rw [← show c₁.counts.full = c.counts.full from calm.full]
            simp only [counts, Net.counted]
            split
            · rename_i both
              simp [both]
            · rename_i other
              simp [other]
        have plain : ∀ code, (net.counted.recordAppend lease.primary (c₁.mutation lease c.sequence)
            c₁.world).1.2.1 = code → code ≠ .retryNextChunk → Tried c c₂ False := by
          intro code is different
          refine ⟨after.added, after.full.trans ?_, after.leases⟩
          rw [if_neg, if_neg not_false]
          exact fun both => different (is.symm.trans both.2)
        split at ran
        · rename_i refused
          cases ran
          refine ⟨after.added, after.full.trans ?_, after.leases⟩
          rw [if_neg, if_neg nofun]
          rintro ⟨ok, -⟩
          rw [ok] at refused
          cases refused
        · rename_i code
          cases ran
          have tried := plain _ code nofun
          exact ⟨tried.added, tried.full, tried.leases⟩
        · rename_i ok code
          cases ran
          refine ⟨after.added, after.full.trans ?_, after.leases⟩
          rw [if_pos ⟨fromGrpc_ok ok, code⟩, if_pos rfl]
        · rename_i code
          have tried := plain _ code nofun
          have rest := ih ran
          exact ⟨Nat.le_trans tried.added rest.added, rest.full.trans (congrArg (· + _) tried.full),
            rest.leases.trans tried.leases⟩
        · rename_i code
          have tried := plain _ code nofun
          have rest := ih ran
          exact ⟨Nat.le_trans tried.added rest.added, rest.full.trans (congrArg (· + _) tried.full),
            rest.leases.trans tried.leases⟩
        · rename_i notFull _ _
          have tried := plain _ rfl notFull
          split at ran
          · cases ran
            exact ⟨tried.added, tried.full, tried.leases⟩
          · cases ran
            exact ⟨tried.added, tried.full, tried.leases⟩

/-! ## What a turn uses up -/

/-- What the turns of the loop may still use up without another full chunk. -/
def left (cfg : Config) (path : Str) (r : Retry) (c : State (ω × Counts)) : Nat :=
  (int32 cfg.mutationRetryOuter + 1 - r.outer).toNat + (if r.ensured then 0 else 1) +
    c.cached path r.index

structure Counting (cfg : Config) (r : Retry) : Prop where
  nonneg : 0 ≤ r.outer
  goes : r.outer ≤ int32 cfg.mutationRetryOuter
  below : int32 cfg.mutationRetryOuter < 2 ^ 31 - 1

theorem Counting.next (counting : Counting cfg r) : int32 (r.outer + 1) = r.outer + 1 := by
  obtain ⟨nonneg, goes, below⟩ := counting
  unfold int32 at goes below ⊢
  omega

structure Spent (cfg : Config) (path : Str) (r r' : Retry) (c c' : State (ω × Counts)) : Prop where
  added : c.counts.added ≤ c'.counts.added
  full : c'.counts.full = c.counts.full
  nonneg : 0 ≤ r'.outer
  left : c'.left cfg path r' + 1 ≤ c.left cfg path r

theorem Counting.later (counting : Counting cfg r) {code : ErrorCode}
    (added : c.counts.added ≤ c'.counts.added) (full : c'.counts.full = c.counts.full)
    (zero : c'.cached path r.index = 0) : Spent cfg path r (r.later code) c c' := by
  have next : (r.later code).outer = r.outer + 1 := counting.next
  have nonneg := counting.nonneg
  have goes := counting.goes
  have zero : c'.cached path (r.later code).index = 0 := zero
  have ensured : (r.later code).ensured = r.ensured := rfl
  refine ⟨added, full, by rw [next]; omega, ?_⟩
  unfold State.left
  rw [next, zero, ensured]
  generalize int32 cfg.mutationRetryOuter = bound at goes
  omega

theorem leaseTurn_full {α : Type} {found : Option (Turn α ⊕ Lease × Bool)}
    (ran : c.leaseTurn net.counted cfg fuel path r = (found, c')) :
    c'.counts.full = c.counts.full := by
  unfold leaseTurn at ran
  split at ran
  · rename_i got
    cases ran
    rw [(findLease_cases got).1]
  · rename_i got
    rw [← (findLease_cases got).1]
    split at ran
    · split at ran
      all_goals
        rename_i ensured
        cases ran
        exact (ensureChunk_calm ensured).1.full
    · split at ran <;> cases ran <;> rfl

theorem leaseTurn_none {α : Type} (ran : c.leaseTurn net.counted cfg fuel path r =
    ((none : Option (Turn α ⊕ Lease × Bool)), c')) :
    c.counts.added + fuel ≤ c'.counts.added := by
  unfold leaseTurn at ran
  split at ran
  · cases ran
  · rename_i c₁ found
    obtain ⟨same, -⟩ := findLease_cases found
    split at ran
    · split at ran
      · rename_i ensured
        cases ran
        rw [← same]
        exact (ensureChunk_calm ensured).2 rfl
      · cases ran
      · cases ran
      · cases ran
    · split at ran <;> cases ran

theorem leaseTurn_again {α : Type} (counting : Counting cfg r)
    (ran : c.leaseTurn net.counted cfg fuel path r = (some (.inl (.again r' : Turn α)), c')) :
    Spent cfg path r r' c c' := by
  unfold leaseTurn at ran
  split at ran
  · cases ran
  · rename_i code c₁ found
    have ⟨same, zero⟩ : c₁.counts = c.counts ∧ c₁.cached path r.index = 0 := by
      obtain ⟨same, ⟨_, -, zero⟩ | ⟨_, is⟩ | ⟨_, is, -⟩⟩ := findLease_cases found
      · exact ⟨same, zero⟩
      · cases is
      · cases is
    split at ran
    · rename_i absent
      split at ran
      · cases ran
      · cases ran
      · cases ran
      · rename_i ensured
        cases ran
        obtain ⟨calm, -⟩ := ensureChunk_calm ensured
        have zero' : c'.cached path r.index = 0 := by
          rw [cached, calm.leases]
          exact zero
        refine ⟨same ▸ calm.added, calm.full.trans (congrArg Counts.full same), counting.nonneg, ?_⟩
        have fresh : r.ensured = false := by simpa using absent.2
        simp only [State.left, zero', fresh]
        simp
    · split at ran
      · cases ran
        exact counting.later (by rw [same]) (by rw [same]) zero
      · cases ran

theorem leaseTurn_found {α : Type} {found : Lease × Bool}
    (ran : c.leaseTurn net.counted cfg fuel path r =
      ((some (.inr found) : Option (Turn α ⊕ Lease × Bool)), c')) :
    c'.counts = c.counts ∧ (found.2 = true → c.cached path r.index = 1) := by
  unfold leaseTurn at ran
  split at ran
  · rename_i got
    cases ran
    obtain ⟨same, ⟨_, is, -⟩ | ⟨lease, is⟩ | ⟨lease, is, one⟩⟩ := findLease_cases got
    · cases is
    · cases is
      exact ⟨same, nofun⟩
    · cases is
      exact ⟨same, fun _ => one⟩
  · split at ran
    · split at ran <;> cases ran
    · split at ran <;> cases ran

theorem failedTurn_again {α : Type} {fromCache : Bool} {code : ErrorCode} {c₀ : State (ω × Counts)}
    (counting : Counting cfg r) (same : c.counts.full = c₀.counts.full)
    (added : c₀.counts.added ≤ c.counts.added) (one : fromCache = true → c₀.cached path r.index = 1)
    (ran : failedTurn path r fromCache code c = ((.again r' : Turn α), c')) :
    Spent cfg path r r' c₀ c' := by
  unfold failedTurn at ran
  split at ran
  · cases ran
  · dsimp only at ran
    split at ran
    · rename_i cached
      cases ran
      refine ⟨added, same, counting.nonneg, ?_⟩
      have zero : State.cached { c with leases := c.leases.invalidate path r.index } path r.index =
          0 := by simp [State.cached, Cache.invalidate]
      simp only [State.left, zero, one cached]
      omega
    · cases ran
      exact counting.later added same (by simp [State.cached, Cache.invalidate])

theorem failedTurn_counts {α : Type} {fromCache : Bool} {code : ErrorCode} {turn : Turn α}
    (ran : failedTurn path r fromCache code c = (turn, c')) : c'.counts = c.counts := by
  unfold failedTurn at ran
  split at ran
  · cases ran
    rfl
  · dsimp only at ran
    split at ran <;> cases ran <;> rfl

/-- The most that turns without a full chunk can use up, and the turn of a full chunk. -/
def allowance (cfg : Config) : Nat := (int32 cfg.mutationRetryOuter + 1).toNat + 3

theorem left_lt (nonneg : 0 ≤ r.outer) : c.left cfg path r < allowance cfg := by
  have one : c.cached path r.index ≤ 1 := cached_le
  unfold State.left allowance
  generalize int32 cfg.mutationRetryOuter = bound
  split <;> omega

/-- The turns of a loop meet one full chunk at most and use up counts, or have met it where the loop
may; they have a result unless `AddChunk` has succeeded as often as there is fuel. -/
structure Frugal {α : Type} (cfg : Config) (path : Str) (fuel : Nat) (mayFill : Bool)
    (turn : Retry → State (ω × Counts) → Option (Turn α) × State (ω × Counts)) : Prop where
  stuck : ∀ {r : Retry} {c c' : State (ω × Counts)}, turn r c = (none, c') →
    c.counts.added + fuel ≤ c'.counts.added
  full : ∀ {r : Retry} {c c' : State (ω × Counts)} {result : Option (Turn α)},
    turn r c = (result, c') → c'.counts.full ≤ c.counts.full + 1
  again : ∀ {r r' : Retry} {c c' : State (ω × Counts)}, Counting cfg r →
    turn r c = (some (.again r'), c') → Spent cfg path r r' c c' ∨
      mayFill = true ∧ c.counts.added ≤ c'.counts.added ∧
        c'.counts.full = c.counts.full + 1 ∧ 0 ≤ r'.outer

theorem writeTurn_frugal {inChunk : Nat} :
    Frugal cfg path fuel false (writeTurn net.counted cfg fuel path inChunk data) := by
  constructor
  · intro r c c' ran
    unfold writeTurn at ran
    split at ran
    · rename_i got
      cases ran
      exact leaseTurn_none got
    · cases ran
    · split at ran <;> cases ran
  · intro r c c' result ran
    unfold writeTurn at ran
    split at ran
    · rename_i got
      cases ran
      exact Nat.le_succ_of_le (leaseTurn_full got).le
    · rename_i got
      cases ran
      exact Nat.le_succ_of_le (leaseTurn_full got).le
    · rename_i got
      rw [← leaseTurn_full got]
      split at ran
      · rename_i tried
        cases ran
        exact Nat.le_succ_of_le (tryWriteLoop_calm tried).full.le
      · rename_i tried
        rw [← (tryWriteLoop_calm tried).full]
        split at ran
        rename_i failed
        cases ran
        exact Nat.le_succ_of_le (congrArg Counts.full (failedTurn_counts failed)).le
  · intro r r' c c' counting ran
    unfold writeTurn at ran
    split at ran
    · cases ran
    · rename_i got
      cases ran
      exact .inl (leaseTurn_again counting got)
    · rename_i fromCache c₁ got
      obtain ⟨same, one⟩ := leaseTurn_found got
      split at ran
      · cases ran
      · rename_i code c₂ tried
        have calm : Calm c₁ c₂ := tryWriteLoop_calm tried
        split at ran
        rename_i failed
        cases ran
        exact .inl (failedTurn_again counting (by rw [calm.full, same])
          (by rw [← same]; exact calm.added) one failed)

theorem appendTurn_frugal :
    Frugal cfg path fuel true (appendTurn net.counted cfg fuel path data) := by
  constructor
  · intro r c c' ran
    unfold appendTurn at ran
    split at ran
    · rename_i got
      cases ran
      exact leaseTurn_none got
    · cases ran
    · rename_i got
      obtain ⟨same, -⟩ := leaseTurn_found got
      split at ran
      · cases ran
      · rename_i tried
        have tried := tryAppendLoop_tried tried
        split at ran
        · rename_i ensured
          cases ran
          have more := (ensureChunk_calm ensured).2 rfl
          have added := tried.added
          rw [same] at added
          omega
        · cases ran
        · split at ran <;> cases ran
      · cases ran
  · intro r c c' result ran
    unfold appendTurn at ran
    split at ran
    · rename_i got
      cases ran
      exact Nat.le_succ_of_le (leaseTurn_full got).le
    · rename_i got
      cases ran
      exact Nat.le_succ_of_le (leaseTurn_full got).le
    · rename_i got
      rw [← leaseTurn_full got]
      split at ran
      · rename_i tried
        cases ran
        exact (tryAppendLoop_tried tried).full_le
      · rename_i tried
        have tried := (tryAppendLoop_tried tried).full_le
        split at ran
        · rename_i ensured
          cases ran
          exact (ensureChunk_calm ensured).1.full ▸ tried
        · rename_i ensured
          cases ran
          exact (ensureChunk_calm ensured).1.full ▸ tried
        · rename_i ensured
          split at ran <;> cases ran <;> exact (ensureChunk_calm ensured).1.full ▸ tried
      · rename_i tried
        split at ran
        rename_i failed
        cases ran
        rw [failedTurn_counts failed]
        exact (tryAppendLoop_tried tried).full_le
  · intro r r' c c' counting ran
    unfold appendTurn at ran
    split at ran
    · cases ran
    · rename_i got
      cases ran
      exact .inl (leaseTurn_again counting got)
    · rename_i fromCache c₁ got
      obtain ⟨same, one⟩ := leaseTurn_found got
      split at ran
      · cases ran
      · rename_i c₂ tried
        have tried : Tried c₁ c₂ _ := tryAppendLoop_tried tried
        have added := tried.added
        have full := tried.full
        rw [if_pos rfl] at full
        rw [same] at added full
        split at ran
        · cases ran
        · rename_i ensured
          cases ran
          have calm := (ensureChunk_calm ensured).1
          exact .inr ⟨rfl, Nat.le_trans added calm.added, calm.full.trans full, Int.le_refl 0⟩
        · rename_i ensured
          have calm := (ensureChunk_calm ensured).1
          split at ran
          · cases ran
            exact .inr ⟨rfl, Nat.le_trans added calm.added, calm.full.trans full, counting.nonneg⟩
          · cases ran
      · rename_i code c₂ tried
        have tried : Tried c₁ c₂ _ := tryAppendLoop_tried tried
        have full := tried.full
        rw [if_neg nofun] at full
        split at ran
        rename_i failed
        cases ran
        exact .inl (failedTurn_again counting (by rw [full, same]; rfl)
          (by rw [← same]; exact tried.added) one failed)

/-- A loop that has not returned has used its fuel up, in counts, in full chunks or in chunks that
were added. -/
theorem retryLoop_none {α : Type} {mayFill : Bool} {turns : Nat}
    {turn : Retry → State (ω × Counts) → Option (Turn α) × State (ω × Counts)}
    (frugal : Frugal cfg path fuel mayFill turn) (below : int32 cfg.mutationRetryOuter < 2 ^ 31 - 1)
    (nonneg : 0 ≤ r.outer) (ran : retryLoop cfg turn turns r c = (none, c')) :
    c.counts.added + fuel ≤ c'.counts.added ∨
      ∃ full, c.counts.full + full ≤ c'.counts.full ∧ (mayFill = false → full = 0) ∧
        turns ≤ c.left cfg path r + full * allowance cfg := by
  induction turns generalizing r c with
  | zero =>
      unfold retryLoop at ran
      split at ran
      · cases ran
      · cases ran
        exact .inr ⟨0, Nat.le_refl _, fun _ => rfl, Nat.zero_le _⟩
  | succ turns ih =>
      unfold retryLoop at ran
      split at ran
      · cases ran
      · rename_i goes
        have counting : Counting cfg r := ⟨nonneg, Int.not_lt.mp goes, below⟩
        dsimp only at ran
        split at ran
        · rename_i stuck
          cases ran
          exact .inl (frugal.stuck stuck)
        · cases ran
        · rename_i r₁ c₁ again
          rcases frugal.again counting again with spent | ⟨may, added, one, nonneg₁⟩
          · rcases ih spent.nonneg ran with more | ⟨full, counted, never, bound⟩
            · exact .inl (Nat.le_trans (Nat.add_le_add_right spent.added _) more)
            · refine .inr ⟨full, spent.full ▸ counted, never, ?_⟩
              have used := spent.left
              omega
          · rcases ih nonneg₁ ran with more | ⟨full, counted, never, bound⟩
            · exact .inl (Nat.le_trans (Nat.add_le_add_right added _) more)
            · refine .inr ⟨full + 1, by omega, fun no => ?_, ?_⟩
              · rw [may] at no
                cases no
              · have most : c₁.left cfg path r₁ < allowance cfg := left_lt nonneg₁
                rw [Nat.add_mul, Nat.one_mul]
                omega

theorem retryLoop_full {α : Type} {mayFill : Bool} {turns : Nat}
    {result : Option (Except ErrorCode α)}
    {turn : Retry → State (ω × Counts) → Option (Turn α) × State (ω × Counts)}
    (frugal : Frugal cfg path fuel mayFill turn)
    (ran : retryLoop cfg turn turns r c = (result, c')) :
    c'.counts.full ≤ c.counts.full + turns := by
  induction turns generalizing r c with
  | zero =>
      unfold retryLoop at ran
      split at ran <;> cases ran <;> exact Nat.le_refl _
  | succ turns ih =>
      unfold retryLoop at ran
      split at ran
      · cases ran
        exact Nat.le_add_right _ _
      · dsimp only at ran
        split at ran
        · rename_i turned
          cases ran
          have one := frugal.full turned
          omega
        · rename_i turned
          cases ran
          have one := frugal.full turned
          omega
        · rename_i turned
          have one := frugal.full turned
          have rest := ih ran
          omega

/-! ## More fuel changes nothing -/

theorem addChunks_mono {next more : Nat} {status : Status}
    (ran : c.addChunks net.counted path index fuel next = (some status, c')) (le : fuel ≤ more) :
    c.addChunks net.counted path index more next = (some status, c') := by
  induction fuel generalizing next c more with
  | zero =>
      unfold addChunks at ran ⊢
      split at ran
      · rename_i stop
        rw [if_pos stop, ran]
      · cases ran
  | succ fuel ih =>
      obtain ⟨more, rfl⟩ : ∃ n, more = n + 1 := ⟨more - 1, by omega⟩
      unfold addChunks at ran ⊢
      split at ran
      · rename_i stop
        rw [if_pos stop, ran]
      · rename_i goes
        rw [if_neg goes]
        dsimp only at ran ⊢
        split at ran
        · exact ran
        · exact ran
        · exact ih ran (by omega)

theorem ensureChunk_mono {more : Nat} {status : Status}
    (ran : c.ensureChunk net.counted fuel path index = (some status, c')) (le : fuel ≤ more) :
    c.ensureChunk net.counted more path index = (some status, c') := by
  unfold ensureChunk at ran ⊢
  split at ran
  · exact ran
  · exact addChunks_mono ran le

theorem leaseTurn_mono {α : Type} {more : Nat} {found : Turn α ⊕ Lease × Bool}
    (ran : c.leaseTurn net.counted cfg fuel path r = (some found, c')) (le : fuel ≤ more) :
    c.leaseTurn net.counted cfg more path r = (some found, c') := by
  unfold leaseTurn at ran ⊢
  split at ran
  · exact ran
  · split at ran
    · rename_i absent
      rw [if_pos absent]
      split at ran
      · cases ran
      · rename_i ensured
        rw [ensureChunk_mono ensured le]
        exact ran
      · rename_i ensured
        rw [ensureChunk_mono ensured le]
        exact ran
      · rename_i status c₂ notFound invalid ensured
        cases ran
        rw [ensureChunk_mono ensured le]
        match status, notFound, invalid with
        | .error .notFound, notFound, _ => exact absurd rfl notFound
        | .error .invalidArgument, _, invalid => exact absurd rfl invalid
        | .ok (), _, _ | .error .alreadyExists, _, _ | .error .unavailable, _, _
        | .error .stale, _, _ | .error .failed, _, _ => rfl
    · rename_i other
      rw [if_neg other]
      exact ran

theorem appendTurn_mono {more : Nat} {turn : Turn Nat}
    (ran : c.appendTurn net.counted cfg fuel path data r = (some turn, c')) (le : fuel ≤ more) :
    c.appendTurn net.counted cfg more path data r = (some turn, c') := by
  unfold appendTurn at ran ⊢
  split at ran
  · cases ran
  · rename_i got
    rw [leaseTurn_mono got le]
    exact ran
  · rename_i got
    rw [leaseTurn_mono got le]
    dsimp only
    split at ran
    · exact ran
    · split at ran
      · cases ran
      all_goals
        rename_i ensured
        rw [ensureChunk_mono ensured le]
        exact ran
    · exact ran

theorem retryLoop_mono {α : Type} {turns more : Nat} {result : Except ErrorCode α}
    {turn turn' : Retry → State (ω × Counts) → Option (Turn α) × State (ω × Counts)}
    (agree : ∀ {r c done c'}, turn r c = (some done, c') → turn' r c = (some done, c'))
    (ran : retryLoop cfg turn turns r c = (some result, c')) (le : turns ≤ more) :
    retryLoop cfg turn' more r c = (some result, c') := by
  induction turns generalizing r c more with
  | zero =>
      unfold retryLoop at ran ⊢
      split at ran
      · rename_i stop
        rw [if_pos stop, ran]
      · cases ran
  | succ turns ih =>
      obtain ⟨more, rfl⟩ : ∃ n, more = n + 1 := ⟨more - 1, by omega⟩
      unfold retryLoop at ran ⊢
      split at ran
      · rename_i stop
        rw [if_pos stop, ran]
      · rename_i goes
        rw [if_neg goes]
        dsimp only at ran ⊢
        split at ran
        · cases ran
        · rename_i finished
          rw [agree finished]
          exact ran
        · rename_i again
          rw [agree again]
          exact ih ran (by omega)

theorem recordAppend_mono {more : Nat} {result : Except ErrorCode Nat}
    (ran : c.recordAppend net.counted cfg fuel path data = (some result, c')) (le : fuel ≤ more) :
    c.recordAppend net.counted cfg more path data = (some result, c') := by
  have agree : ∀ {r : Retry} {c : State (ω × Counts)} {turn c'},
      c.appendTurn net.counted cfg fuel path data r = (some turn, c') →
        c.appendTurn net.counted cfg more path data r = (some turn, c') :=
    fun ran => appendTurn_mono ran le
  unfold recordAppend at ran ⊢
  split at ran
  · exact ran
  · split at ran
    · rename_i long
      rw [if_pos long]
      exact ran
    · rename_i fits
      rw [if_neg fits]
      split at ran
      · exact ran
      · dsimp only at ran ⊢
        split at ran
        · rename_i empty
          rw [if_pos empty]
          split at ran
          · cases ran
          · rename_i ensured
            rw [ensureChunk_mono ensured le]
            exact ran
          · rename_i ensured
            rw [ensureChunk_mono ensured le]
            exact retryLoop_mono agree ran le
        · rename_i chunks
          rw [if_neg chunks]
          exact retryLoop_mono agree ran le

/-! ## The loops return -/

theorem writeChunk_isSome {inChunk added : Nat}
    (below : int32 cfg.mutationRetryOuter < 2 ^ 31 - 1)
    (few : (c.writeChunk net.counted cfg fuel path index inChunk data).2.counts.added ≤ added)
    (enough : allowance cfg + added < fuel) :
    (c.writeChunk net.counted cfg fuel path index inChunk data).1.isSome := by
  generalize ran : c.writeChunk net.counted cfg fuel path index inChunk data = run at few
  obtain ⟨_ | result, c'⟩ := run
  · exfalso
    have few : c'.counts.added ≤ added := few
    have start : left cfg path { index } c < allowance cfg := left_lt (Int.le_refl 0)
    rcases retryLoop_none writeTurn_frugal below (Int.le_refl 0) ran with
      more | ⟨full, -, never, bound⟩
    · omega
    · rw [never rfl] at bound
      omega
  · rfl

theorem ensureClusterInfo_calm {result : Status}
    (ran : c.ensureClusterInfo net.counted = (result, c')) : Calm c c' := by
  unfold ensureClusterInfo at ran
  split at ran
  · cases ran
    exact .refl
  · dsimp only at ran
    split at ran
    · cases ran
      exact ⟨Nat.le_refl _, rfl, rfl⟩
    · split at ran
      · cases ran
        exact ⟨Nat.le_refl _, rfl, rfl⟩
      · cases ran
        exact ⟨Nat.le_refl _, rfl, rfl⟩

theorem openFile_calm {result : Except ErrorCode Nat}
    (ran : c.openFile net.counted path = (result, c')) : Calm c c' := by
  cases ran
  exact ⟨Nat.le_refl _, rfl, rfl⟩

theorem recordAppend_none (below : int32 cfg.mutationRetryOuter < 2 ^ 31 - 1)
    (ran : c.recordAppend net.counted cfg fuel path data = (none, c')) :
    fuel ≤ c'.counts.added ∨
      ∃ full ≤ c'.counts.full, fuel ≤ (full + 1) * allowance cfg := by
  have loop : ∀ {c₁ : State (ω × Counts)} {r : Retry}, 0 ≤ r.outer →
      retryLoop cfg (appendTurn net.counted cfg fuel path data) fuel r c₁ = (none, c') →
      fuel ≤ c'.counts.added ∨ ∃ full ≤ c'.counts.full, fuel ≤ (full + 1) * allowance cfg := by
    intro c₁ r nonneg ran
    have start : left cfg path r c₁ < allowance cfg := left_lt nonneg
    rcases retryLoop_none appendTurn_frugal below nonneg ran with more | ⟨full, counted, -, bound⟩
    · exact .inl (by omega)
    · refine .inr ⟨full, by omega, ?_⟩
      rw [Nat.add_mul, Nat.one_mul]
      omega
  unfold recordAppend at ran
  split at ran
  · cases ran
  · split at ran
    · cases ran
    · split at ran
      · cases ran
      · dsimp only at ran
        split at ran
        · split at ran
          · rename_i ensured
            cases ran
            have more := (ensureChunk_calm ensured).2 rfl
            exact .inl (by omega)
          · cases ran
          · exact loop (Int.le_refl 0) ran
        · exact loop (Int.le_refl 0) ran

/-- `RecordAppend` returns within a bound of the chunks that are added and of the full chunks that
none of them has paid for. -/
theorem recordAppend_isSome {added wasted : Nat}
    (below : int32 cfg.mutationRetryOuter < 2 ^ 31 - 1)
    (few : (c.recordAppend net.counted cfg fuel path data).2.counts.added ≤ added)
    (paid : (c.recordAppend net.counted cfg fuel path data).2.counts.wasted ≤ wasted)
    (enough : (added + wasted + 2) * allowance cfg + added < fuel) :
    (c.recordAppend net.counted cfg fuel path data).1.isSome := by
  generalize ran : c.recordAppend net.counted cfg fuel path data = run at few paid
  obtain ⟨_ | result, c'⟩ := run
  · exfalso
    have few : c'.counts.added ≤ added := few
    have paid : c'.counts.wasted ≤ wasted := paid
    rcases recordAppend_none below ran with more | ⟨full, le, bound⟩
    · omega
    · have met : c'.counts.full ≤ c'.counts.added + c'.counts.wasted + 1 := c'.counts.full_le
      have most : (full + 1) * allowance cfg ≤ (added + wasted + 2) * allowance cfg :=
        Nat.mul_le_mul_right _ (by omega)
      omega
  · rfl

theorem recordAppend_full :
    (c.recordAppend net.counted cfg fuel path data).2.counts.full ≤ c.counts.full + fuel := by
  generalize ran : c.recordAppend net.counted cfg fuel path data = run
  obtain ⟨result, c'⟩ := run
  unfold recordAppend at ran
  split at ran
  · rename_i loaded
    cases ran
    exact Nat.le_trans (ensureClusterInfo_calm loaded).full.le (Nat.le_add_right _ _)
  · rename_i loaded
    rw [← (ensureClusterInfo_calm loaded).full]
    split at ran
    · cases ran
      exact Nat.le_add_right _ _
    · split at ran
      · rename_i opened
        cases ran
        exact Nat.le_trans (openFile_calm opened).full.le (Nat.le_add_right _ _)
      · rename_i opened
        rw [← (openFile_calm opened).full]
        dsimp only at ran
        split at ran
        · split at ran
          · rename_i ensured
            cases ran
            exact Nat.le_trans (ensureChunk_calm ensured).1.full.le (Nat.le_add_right _ _)
          · rename_i ensured
            cases ran
            exact Nat.le_trans (ensureChunk_calm ensured).1.full.le (Nat.le_add_right _ _)
          · rename_i ensured
            rw [← (ensureChunk_calm ensured).1.full]
            exact retryLoop_full appendTurn_frugal ran
        · exact retryLoop_full appendTurn_frugal ran

theorem recordAppend_settled (holds : Counts → Prop) {enough : Nat}
    (returned : (c.recordAppend net.counted cfg enough path data).1.isSome)
    (before : ∀ fuel ≤ enough, holds (c.recordAppend net.counted cfg fuel path data).2.counts)
    (fuel : Nat) : holds (c.recordAppend net.counted cfg fuel path data).2.counts := by
  rcases Nat.le_total fuel enough with less | more
  · exact before fuel less
  · have last := before enough (Nat.le_refl _)
    generalize ran : c.recordAppend net.counted cfg enough path data = run at returned last
    obtain ⟨_ | result, c'⟩ := run
    · cases returned
    · rwa [recordAppend_mono ran more]

end

def counting {ω : Type} (c : State ω) : State (ω × Counts) where
  world := (c.world, .start)
  clientId := c.clientId
  replicaSeed := c.replicaSeed
  sequence := c.sequence
  locations := c.locations
  leases := c.leases
  infoLoaded := c.infoLoaded
  chunkSize := c.chunkSize
  maxAppend := c.maxAppend

/-- A call of `RecordAppend` in which `AddChunk` succeeds `added` times at most. -/
structure Appending (cfg : Config) where
  World : Type
  net : Net World
  client : State World
  path : Str
  data : Bytes
  added : Nat
  few : ∀ fuel, (client.counting.recordAppend net.counted cfg fuel path data).2.counts.added ≤ added

def Appending.run {cfg : Config} (call : Appending cfg) (fuel : Nat) :
    Option (Except ErrorCode Nat) × State (call.World × Counts) :=
  call.client.counting.recordAppend call.net.counted cfg fuel call.path call.data

/-- More fuel than `turns` is enough. -/
def Appending.Returns {cfg : Config} (call : Appending cfg) (turns : Nat) : Prop :=
  ∀ fuel, turns < fuel → (call.run fuel).1.isSome

/-- At most `wasted` times a chunk is full with none added since the full one before it. -/
def Appending.Wastes {cfg : Config} (call : Appending cfg) (wasted : Nat) : Prop :=
  ∀ fuel, (call.run fuel).2.counts.wasted ≤ wasted

end State

/-! ## Worlds that never change their mind -/

section
variable (holder : GrpcCode) (append : ResultCode) (cfg : Config) (path : Str) (data : Bytes)
  {fuel : Nat}

/-- A master that has one chunk for each file and no chunkserver for a second; `holder` answers
`FindLeaseHolder` and `append` every `RecordAppend`. -/
def steady (holder : GrpcCode) (append : ResultCode) : Net Unit where
  now _ := (0, ())
  getClusterInfo _ := ((.ok, 4, 0), ())
  openFile _ _ := ((.ok, 1), ())
  addChunk _ _ _ := ((.ok, .noReplicas), ())
  findLocation _ _ _ _ := ((.ok, []), ())
  findLeaseHolder _ _ _ := ((holder, .ok, ⟨1, 1, ⟨[], [], []⟩, []⟩), ())
  pushData _ _ _ _ _ := ((.ok, .ok), ())
  write _ _ _ _ := ((.ok, .ok), ())
  recordAppend _ _ _ := ((.ok, append, 0), ())
  read _ _ _ _ _ _ := ((.ok, .noSuchChunk, []), ())
  getChunkLength _ _ _ := ((.ok, .noSuchChunk, 0), ())

theorem int32_le (n : Int) : int32 n ≤ 2 ^ 31 - 1 := by
  unfold int32
  omega

namespace State
variable {c c' : State (Unit × Counts)}

theorem steady_findLease (index : Nat) : ∃ found c', c.findLease (steady .ok append).counted cfg
    path index = (.ok found, c') ∧ c'.counts = c.counts := by
  unfold findLease
  generalize got : c.getLease (steady .ok append).counted path index = answer
  obtain ⟨_ | lease, c₁⟩ := answer
  · exact ⟨_, _, rfl, (getLease_cases got).1⟩
  · exact ⟨_, _, rfl, (getLease_cases got).1⟩

theorem steady_full (lease : Lease) : ∃ c', c.tryAppend (steady holder .retryNextChunk).counted cfg
    lease data = (.nextChunk, c') ∧ c'.counts.added = c.counts.added := by
  obtain ⟨inner, is⟩ : ∃ n, max cfg.mutationRetryInner 1 = n + 1 :=
    ⟨max cfg.mutationRetryInner 1 - 1, by omega⟩
  unfold tryAppend
  rw [is]
  exact ⟨_, rfl, rfl⟩

theorem steady_turn : ∃ c', c'.counts.added = c.counts.added ∧
    (c.appendTurn (steady .ok .retryNextChunk).counted cfg fuel path data { index := 0 } =
        (none, c') ∨
      c.appendTurn (steady .ok .retryNextChunk).counted cfg fuel path data { index := 0 } =
        (some (.again { index := 0 }), c')) := by
  obtain ⟨⟨lease, fromCache⟩, c₁, found, same⟩ :=
    steady_findLease .retryNextChunk cfg path 0 (c := c)
  obtain ⟨c₂, tried, kept⟩ :=
    steady_full .ok cfg data lease (c := c₁)
  rw [same] at kept
  unfold appendTurn leaseTurn
  simp only [found, tried]
  cases fuel with
  | zero => exact ⟨_, kept, .inl rfl⟩
  | succ fuel => exact ⟨_, kept, .inr rfl⟩

theorem steady_loop {turns : Nat} (start : 0 ≤ int32 cfg.mutationRetryOuter) :
    ∃ c', c'.counts.added = c.counts.added ∧
      retryLoop cfg (appendTurn (steady .ok .retryNextChunk).counted cfg fuel path data) turns
        { index := 0 } c = (none, c') := by
  induction turns generalizing c with
  | zero =>
      unfold retryLoop
      rw [if_neg (Int.not_lt.mpr start)]
      exact ⟨_, rfl, rfl⟩
  | succ turns ih =>
      unfold retryLoop
      rw [if_neg (Int.not_lt.mpr start)]
      obtain ⟨c₁, kept, stuck | again⟩ :=
        @steady_turn cfg path data fuel c
      · simp only [stuck]
        exact ⟨_, kept, rfl⟩
      · simp only [again]
        obtain ⟨c', more, ran⟩ := ih (c := c₁)
        exact ⟨c', more.trans kept, ran⟩

theorem steady_refused {α : Type} (fuel : Nat) (r : Retry)
    (none_yet : ∀ path index, c.leases path index = none) :
    ∃ c' : State (Unit × Counts), c'.counts = c.counts ∧ c'.leases = c.leases ∧
      c.leaseTurn (steady .unavailable append).counted cfg fuel path r =
        (some (.inl (.again (r.later .unavailable) : Turn α)), c') := by
  unfold leaseTurn findLease getLease
  rw [none_yet]
  exact ⟨_, rfl, rfl, rfl⟩

/-- Where the last count of an `int` is allowed, a lease that cannot be had is asked for without
end. -/
theorem steady_endless {α : Type} (fuel : Nat) {turns : Nat} {r : Retry}
    {turn : Retry → State (Unit × Counts) → Option (Turn α) × State (Unit × Counts)}
    (refused : ∀ {r c again c'}, c.leaseTurn (steady .unavailable append).counted cfg fuel path r =
      (some (.inl again), c') → turn r c = (some again, c'))
    (all : int32 cfg.mutationRetryOuter = 2 ^ 31 - 1) (last : r.outer ≤ 2 ^ 31 - 1)
    (none_yet : ∀ path index, c.leases path index = none) :
    ∃ c', c'.counts = c.counts ∧ retryLoop cfg turn turns r c = (none, c') := by
  induction turns generalizing c r with
  | zero =>
      unfold retryLoop
      rw [if_neg (by rw [all]; omega)]
      exact ⟨_, rfl, rfl⟩
  | succ turns ih =>
      obtain ⟨c₁, same, leases, asked⟩ := steady_refused append cfg path fuel r none_yet (α := α)
      unfold retryLoop
      rw [if_neg (by rw [all]; omega)]
      simp only [refused asked]
      obtain ⟨c', kept, ran⟩ := ih (c := c₁) (r := r.later .unavailable) (int32_le _)
        (by rw [leases]; exact none_yet)
      exact ⟨c', by rw [kept, same], ran⟩

theorem steady_writeChunk (all : int32 cfg.mutationRetryOuter = 2 ^ 31 - 1) (fuel : Nat) :
    ∃ c' : State (Unit × Counts), c'.counts = .start ∧
      ({ world := () } : State Unit).counting.writeChunk (steady .unavailable append).counted cfg
        fuel path 0 0 data = (none, c') := by
  have none_yet : ∀ path index, ({ world := () } : State Unit).counting.leases path index = none :=
    fun _ _ => rfl
  refine steady_endless append cfg path fuel (fun asked => ?_) all (by decide) none_yet
  unfold writeTurn
  rw [asked]

theorem steady_recordAppend (all : int32 cfg.mutationRetryOuter = 2 ^ 31 - 1) (fuel : Nat) :
    ∃ c' : State (Unit × Counts), c'.counts = .start ∧
      ({ world := () } : State Unit).counting.recordAppend (steady .unavailable append).counted cfg
        fuel path [] = (none, c') := by
  refine steady_endless append cfg path fuel (r := { index := 0 }) (fun asked => ?_) all
    (by decide) (c := { world := ((), .start), infoLoaded := true, chunkSize := 4, maxAppend := 1 })
    fun _ _ => rfl
  unfold appendTurn
  rw [asked]

/-- `WriteChunk` returns within a bound of the counts it has and the chunks that are added if and
only if the last count is no overflow, and `RecordAppend` within a bound of these and of the full
chunks that it wastes. For a set of calls that waste more and more of them there is no bound. -/
theorem retries_return (cfg : Config) :
    ((∀ (ω : Type) (net : Net ω) (c : State ω) (path : Str) (index inChunk : Nat) (data : Bytes)
        (added : Nat), (∀ fuel, (c.counting.writeChunk net.counted cfg fuel path index inChunk
          data).2.counts.added ≤ added) →
        ∀ fuel, allowance cfg + added < fuel →
          (c.counting.writeChunk net.counted cfg fuel path index inChunk data).1.isSome) ↔
      int32 cfg.mutationRetryOuter ≠ 2 ^ 31 - 1) ∧
    ((∀ (call : Appending cfg) (wasted : Nat), call.Wastes wasted →
        call.Returns ((call.added + wasted + 2) * allowance cfg + call.added)) ↔
      int32 cfg.mutationRetryOuter ≠ 2 ^ 31 - 1) ∧
    (int32 cfg.mutationRetryOuter ≠ 2 ^ 31 - 1 → ∀ calls : Set (Appending cfg),
      (∃ bound : Nat → Nat, ∀ call ∈ calls, call.Returns (bound call.added)) ↔
        ∃ waste : Nat → Nat, ∀ call ∈ calls, call.Wastes (waste call.added)) := by
  have below : int32 cfg.mutationRetryOuter ≠ 2 ^ 31 - 1 →
      int32 cfg.mutationRetryOuter < 2 ^ 31 - 1 := fun different =>
    lt_of_le_of_ne (int32_le _) different
  have appends : int32 cfg.mutationRetryOuter ≠ 2 ^ 31 - 1 → ∀ (call : Appending cfg)
      (wasted : Nat), call.Wastes wasted →
      call.Returns ((call.added + wasted + 2) * allowance cfg + call.added) :=
    fun different call wasted paid fuel enough =>
      recordAppend_isSome (below different) (call.few fuel) (paid fuel) enough
  refine ⟨⟨fun returns all => ?_, fun different => ?_⟩, ⟨fun returns all => ?_, appends⟩,
    fun different calls => ⟨?_, ?_⟩⟩
  · have few : ∀ fuel, (({ world := () } : State Unit).counting.writeChunk
        (steady .unavailable .failed).counted cfg fuel [] 0 0 []).2.counts.added ≤ 0 := by
      intro fuel
      obtain ⟨c', none_added, ran⟩ := steady_writeChunk .failed cfg [] [] all fuel
      rw [ran, none_added]
      exact Nat.le_refl 0
    have some := returns Unit (steady .unavailable .failed) { world := () } [] 0 0 [] 0 few _
      (Nat.lt_succ_self _)
    obtain ⟨c', -, ran⟩ := steady_writeChunk .failed cfg [] [] all (allowance cfg + 0 + 1)
    rw [ran] at some
    cases some
  · intro ω net c path index inChunk data added few fuel enough
    exact writeChunk_isSome (below different) (few fuel) enough
  · have counts : ∀ fuel, (({ world := () } : State Unit).counting.recordAppend
        (steady .unavailable .failed).counted cfg fuel [] []).2.counts = .start := by
      intro fuel
      obtain ⟨c', none_counted, ran⟩ := steady_recordAppend .failed cfg [] all fuel
      rw [ran, none_counted]
    let call : Appending cfg :=
      { World := Unit, net := steady .unavailable .failed, client := { world := () }, path := []
        data := [], added := 0, few := fun fuel => (congrArg Counts.added (counts fuel)).le }
    have some := returns call 0 (fun fuel => (congrArg Counts.wasted (counts fuel)).le) _
      (Nat.lt_succ_self _)
    obtain ⟨c', -, ran⟩ := steady_recordAppend .failed cfg [] all
      ((call.added + 0 + 2) * allowance cfg + call.added).succ
    have stuck : (call.run ((call.added + 0 + 2) * allowance cfg + call.added).succ).1 = none :=
      congrArg Prod.fst ran
    rw [stuck] at some
    cases some
  · -- A full chunk is met in a turn, so that no more can be wasted than there are turns.
    rintro ⟨bound, returns⟩
    refine ⟨fun added => bound added + 1, fun call member => ?_⟩
    refine recordAppend_settled (fun counts => counts.wasted ≤ bound call.added + 1)
      (returns call member _ (Nat.lt_succ_self _)) fun fuel less => ?_
    have turns : (call.run fuel).2.counts.full ≤ 0 + fuel := recordAppend_full
    exact Nat.le_trans (Counts.wasted_le _) (Nat.le_trans turns ((Nat.zero_add fuel).le.trans less))
  · rintro ⟨waste, paid⟩
    exact ⟨fun added => (added + waste added + 2) * allowance cfg + added,
      fun call member => appends different call _ (paid call member)⟩

/-- A chunk that is full, a chunkserver out of reach, and an append that succeeds. -/
def recovering : Net Nat where
  now w := (0, w)
  getClusterInfo w := ((.ok, 4, 1), w)
  openFile _ w := ((.ok, 1), w)
  addChunk _ _ w := ((.ok, .ok), w)
  findLocation _ _ _ w := ((.ok, []), w)
  findLeaseHolder _ _ w := ((.ok, .ok, ⟨1, 1, ⟨[], [], []⟩, []⟩), w)
  pushData _ _ _ _ w := ((.ok, .ok), w)
  write _ _ _ w := ((.ok, .ok), w)
  recordAppend _ _ w :=
    (if w = 0 then (.ok, .retryNextChunk, 0) else if w = 1 then (.unavailable, .ok, 0)
      else (.ok, .ok, 0), w + 1)
  read _ _ _ _ _ w := ((.ok, .noSuchChunk, []), w)
  getChunkLength _ _ w := ((.ok, .noSuchChunk, 0), w)

theorem recovering_returns : (({ world := 0 } : State Nat).counting.recordAppend
    recovering.counted {} 3 [] []).1.isSome := by
  decide +kernel

def recovered : Appending {} where
  World := Nat
  net := recovering
  client := { world := 0 }
  path := []
  data := []
  added := 1
  few := recordAppend_settled (fun counts => counts.added ≤ 1) recovering_returns
    (by decide +kernel)

/-- The third turn is the last one. -/
theorem retries_return_recovered : recovered.Returns 19 ∧ (recovered.run 20).1 = some (.ok 4) ∧
    (recovered.run 20).2.counts.full = 1 := by
  have paid : recovered.Wastes 0 :=
    recordAppend_settled (fun counts => counts.wasted ≤ 0) recovering_returns (by decide +kernel)
  exact ⟨(retries_return {}).2.1.mpr (by decide) recovered 0 paid,
    by decide +kernel, by decide +kernel⟩

/-- With the default configuration, `RETRY_NEXT_CHUNK` and `NO_REPLICAS` for ever: no chunk is
added, and `RecordAppend` never returns. -/
theorem retries_return_fails :
    (∀ fuel, (({ world := () } : State Unit).counting.recordAppend
      (steady .ok .retryNextChunk).counted {} fuel [] []).1 = none) ∧
    ∀ fuel, (({ world := () } : State Unit).counting.recordAppend
      (steady .ok .retryNextChunk).counted {} fuel [] []).2.counts.added = 0 := by
  have stuck : ∀ fuel, ∃ c' : State (Unit × Counts), c'.counts.added = 0 ∧
      ({ world := () } : State Unit).counting.recordAppend (steady .ok .retryNextChunk).counted {}
        fuel [] [] = (none, c') := fun fuel => @steady_loop {} [] [] fuel
    { world := ((), .start), infoLoaded := true, chunkSize := 4, maxAppend := 1 } fuel (by decide)
  constructor
  · intro fuel
    obtain ⟨c', -, ran⟩ := stuck fuel
    rw [ran]
  · intro fuel
    obtain ⟨c', kept, ran⟩ := stuck fuel
    rw [ran]
    exact kept

end State

end

end Gfs.Client
