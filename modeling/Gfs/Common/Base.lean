import Mathlib

/-!
# Common types: `common/clock.h`, `common/config.h`, the result codes of `gfs.proto`

A `std::string` is a list of characters, one character for each byte. A `TimePoint` and a
duration count the nanoseconds of the steady clock.
-/

namespace Gfs

abbrev Str := List Char
abbrev Bytes := List UInt8
abbrev Handle := Nat
abbrev ServerId := Str
abbrev TimePoint := Int
abbrev Duration := Int

/-- Every decision about a list of names or servers uses this instance. -/
instance lawfulStr : LawfulBEq Str := inferInstance

def millis (count : Int) : Duration := 1000000 * count

/-- Arithmetic on `uint64_t` wraps around. -/
def u64 (n : Nat) : Nat := n % 2 ^ 64

theorem u64_of_lt {n : Nat} (small : n < 2 ^ 64) : u64 n = n := Nat.mod_eq_of_lt small

/-- Arithmetic on `int64_t`, as it is compiled. -/
def int64 (n : Int) : Int := (n + 2 ^ 63) % 2 ^ 64 - 2 ^ 63

theorem int64_of_range {n : Int} (low : -2 ^ 63 ≤ n) (high : n < 2 ^ 63) : int64 n = n := by
  unfold int64
  rw [Int.emod_eq_of_lt (by omega) (by omega)]
  omega

/-- The fields of `Config` that the modelled code reads. -/
structure Config where
  chunkSize : Nat := 64 * 2 ^ 20
  replicationGoal : Nat := 3
  minReplicasForWrite : Nat := 1
  leaseDuration : Duration := millis 60000
  leaseClockSkewMargin : Duration := millis 5000
  heartbeatInterval : Duration := millis 3000
  chunkserverDeadTimeout : Duration := millis 15000
  deletedFileRetention : Duration := millis 259200000
  clientLocationCacheTtl : Duration := millis 60000
  mutationRetryInner : Nat := 3
  mutationRetryOuter : Nat := 2

inductive ResultCode
  | ok | staleVersion | notPrimary | dataMissing | retryNextChunk | checksumMismatch
  | noSuchChunk | outOfRange | noReplicas | leaseExpired | failed
deriving DecidableEq, Repr

end Gfs
