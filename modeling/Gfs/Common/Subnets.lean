import Gfs.Common.Distance
import Gfs.Lib.Nearest

/-!
# The way of a push through racks and subnets

Under `DistanceBetween` a rack is cohesive, and so is a subnet where no replica has a rack.
The chain of `OrderPushChain` goes into each of them once.
-/

namespace Gfs.Push
open Lib.Nearest

variable {inetPton : Str → Option (BitVec 32)}

theorem getMsbD_mask (i : Nat) : (0x80000000#32).getMsbD i = decide (i = 0) := by
  cases i with
  | zero => rfl
  | succ i =>
      by_cases inside : i + 1 < 32
      · have all : ∀ j < 31, (0x80000000#32).getMsbD (j + 1) = false := by decide
        rw [all i (by omega)]
        simp
      · rw [BitVec.getMsbD_of_ge _ _ (Nat.le_of_not_lt inside)]
        simp

theorem and_mask {x : BitVec 32} {i : Nat} (inside : i < 32) :
    x &&& (0x80000000#32 >>> i) = 0 ↔ x.getMsbD i = false := by
  constructor
  · intro none
    have bit := congrArg (fun y => BitVec.getMsbD y i) none
    simpa [BitVec.getMsbD_and, BitVec.getMsbD_ushiftRight, getMsbD_mask, inside] using bit
  · intro zero
    apply BitVec.eq_of_getMsbD_eq
    intro j below
    simp only [BitVec.getMsbD_and, BitVec.getMsbD_ushiftRight, getMsbD_mask]
    by_cases same : j = i
    · subst same
      simp [zero]
    · simp
      omega

theorem commonBitsFrom_le {x : BitVec 32} {fuel bits k : Nat} (enough : 32 - bits ≤ fuel)
    (within : bits ≤ 32) (upTo : k ≤ 32) (before : ∀ i < bits, x.getMsbD i = false) :
    k ≤ commonBitsFrom x fuel bits ↔ ∀ i < k, x.getMsbD i = false := by
  induction fuel generalizing bits with
  | zero =>
      have done : bits = 32 := by omega
      subst done
      unfold commonBitsFrom
      exact ⟨fun _ i below => before i (by omega), fun _ => upTo⟩
  | succ fuel ih =>
      unfold commonBitsFrom
      by_cases goes : bits < 32 ∧ x &&& (0x80000000#32 >>> bits) = 0
      · rw [if_pos goes]
        apply ih
        · omega
        · omega
        · intro i below
          rcases Nat.lt_succ_iff_lt_or_eq.mp below with earlier | rfl
          · exact before i earlier
          · exact (and_mask goes.1).mp goes.2
      · rw [if_neg goes]
        constructor
        · intro le i below
          exact before i (by omega)
        · intro zeros
          by_contra beyond
          have inside : bits < 32 := by omega
          exact goes ⟨inside, (and_mask inside).mpr (zeros bits (by omega))⟩

theorem le_commonPrefixBits {a b : BitVec 32} {k : Nat} (upTo : k ≤ 32) :
    k ≤ commonPrefixBits a b ↔ ∀ i < k, a.getMsbD i = b.getMsbD i := by
  unfold commonPrefixBits
  rw [commonBitsFrom_le (Nat.le_refl _) (Nat.zero_le _) upTo (by simp)]
  simp

/-- An address in the subnet of the first `k` bits of `net`. -/
def InSubnet (inetPton : Str → Option (BitVec 32)) (net : BitVec 32) (k : Nat) (replica : Replica) :
    Prop :=
  ∃ ip, parseIpv4 inetPton replica.address = some ip ∧ ∀ i < k, ip.getMsbD i = net.getMsbD i

def apart (inetPton : Str → Option (BitVec 32)) (a b : Replica) : Nat :=
  distanceBetween inetPton a.endpoint b.endpoint

theorem cohesive_rack {replicas : List Replica} {rack : Str}
    (racked : ∀ replica ∈ replicas, replica.rack ≠ []) :
    Cohesive (apart inetPton) replicas fun replica => replica.rack = rack := by
  intro x first y second z third here there elsewhere
  have near : apart inetPton x y = 0 := by
    have same : x.endpoint.rack = y.endpoint.rack := here.trans there.symm
    unfold apart distanceBetween
    rw [if_pos ⟨racked x first, racked y second⟩, if_pos same]
  have far : apart inetPton x z = 1 := by
    have other : x.endpoint.rack ≠ z.endpoint.rack := fun same => elsewhere (same.symm.trans here)
    unfold apart distanceBetween
    rw [if_pos ⟨racked x first, racked z third⟩, if_neg other]
  rw [near, far]
  exact Nat.zero_lt_one

theorem cohesive_subnet {replicas : List Replica} {net : BitVec 32} {k : Nat} (some : 0 < k)
    (upTo : k ≤ 32) (unracked : ∀ replica ∈ replicas, replica.rack = []) :
    Cohesive (apart inetPton) replicas (InSubnet inetPton net k) := by
  intro x first y second z third here there elsewhere
  obtain ⟨ip, parsed, inside⟩ := here
  obtain ⟨ip', parsed', inside'⟩ := there
  have plain : ∀ other : Replica, ¬(x.endpoint.rack ≠ [] ∧ other.endpoint.rack ≠ []) :=
    fun other both => both.1 (unracked x first)
  have near : apart inetPton x y ≤ 32 - k := by
    have common : k ≤ commonPrefixBits ip ip' :=
      (le_commonPrefixBits upTo).mpr fun i below => (inside i below).trans (inside' i below).symm
    have parsed : parseIpv4 inetPton x.endpoint.address = Option.some ip := parsed
    have parsed' : parseIpv4 inetPton y.endpoint.address = Option.some ip' := parsed'
    unfold apart distanceBetween
    rw [if_neg (plain y), parsed, parsed']
    dsimp only
    omega
  refine Nat.lt_of_le_of_lt near ?_
  have parsed : parseIpv4 inetPton x.endpoint.address = Option.some ip := parsed
  unfold apart distanceBetween
  rw [if_neg (plain z), parsed]
  cases third' : parseIpv4 inetPton z.endpoint.address with
  | none =>
      dsimp only
      omega
  | some ip'' =>
      dsimp only
      have differ : ¬ k ≤ commonPrefixBits ip ip'' := by
        intro common
        apply elsewhere
        refine ⟨ip'', third', fun i below => ?_⟩
        rw [← inside i below, (le_commonPrefixBits upTo).mp common i below]
      omega

theorem Nearest.path {origin : Replica} {chain : List Replica}
    (nearest : Nearest inetPton origin.endpoint chain) : Path (apart inetPton) origin chain := by
  induction chain generalizing origin with
  | nil => trivial
  | cons replica rest ih => exact ⟨nearest.1, ih nearest.2⟩

/-- Data that is pushed along the chain comes into every rack once and, where no replica has a rack,
into every subnet once. -/
theorem orderPushChain_together (inetPton : Str → Option (BitVec 32)) (origin : Endpoint)
    (replicas : List Replica) :
    ((∀ replica ∈ replicas, replica.rack ≠ []) → ∀ rack,
        Together (fun replica => replica.rack = rack) (orderPushChain inetPton origin replicas)) ∧
      ((∀ replica ∈ replicas, replica.rack = []) → ∀ net k, 0 < k → k ≤ 32 →
        Together (InSubnet inetPton net k) (orderPushChain inetPton origin replicas)) := by
  obtain ⟨perm, nearest⟩ := @orderPushChain_spec inetPton origin replicas
  have path : Path (apart inetPton) ⟨[], origin.address, origin.rack⟩
      (orderPushChain inetPton origin replicas) := Nearest.path nearest
  constructor
  · intro racked rack
    apply path.together
    exact cohesive_rack fun replica member => racked replica (perm.mem_iff.mp member)
  · intro unracked net k some upTo
    apply path.together
    exact cohesive_subnet some upTo fun replica member => unracked replica (perm.mem_iff.mp member)

/-- What `inet_pton` makes of a few addresses. -/
def fewAddresses (host : Str) : Option (BitVec 32) :=
  if host = "10.1.0.1".toList then some 0x0a010001#32
  else if host = "10.2.0.1".toList then some 0x0a020001#32
  else if host = "10.1.0.2".toList then some 0x0a010002#32
  else none

def unracked : List Replica :=
  ["10.1.0.1", "10.2.0.1", "10.1.0.2"].map fun host =>
    ⟨host.toList, (host ++ ":5001").toList, []⟩

def racked : List Replica :=
  [("a", "r"), ("b", "s"), ("c", "r")].map fun (host, rack) =>
    ⟨host.toList, (host ++ ":5001").toList, rack.toList⟩

theorem orderPushChain_together_few :
    Together (fun replica => replica.rack = "r".toList)
        (orderPushChain fewAddresses ⟨[], "s".toList⟩ racked) ∧
      Together (InSubnet fewAddresses 0x0a010000#32 16)
        (orderPushChain fewAddresses ⟨[], []⟩ unracked) ∧
      (orderPushChain fewAddresses ⟨[], []⟩ unracked).map (·.chunkserverId) =
        ["10.1.0.1", "10.1.0.2", "10.2.0.1"].map String.toList := by
  refine ⟨?_, ?_, by decide +kernel⟩
  · apply (orderPushChain_together fewAddresses ⟨[], "s".toList⟩ racked).1
    decide +kernel
  · apply (orderPushChain_together fewAddresses ⟨[], []⟩ unracked).2
    · decide +kernel
    · decide
    · decide

end Gfs.Push
