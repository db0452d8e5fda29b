import Gfs.Common.PathStrings
import Mathlib.Data.List.Perm.Basic

/-!
# `common/distance.cc`

The chain that data is pushed along goes from each replica to a nearest one of those left. What
`inet_pton` accepts is left open.
-/

namespace Gfs.Push

structure Replica where
  chunkserverId : ServerId
  address : Str
  rack : Str
deriving DecidableEq

structure Endpoint where
  address : Str
  rack : Str

def Replica.endpoint (replica : Replica) : Endpoint := ⟨replica.address, replica.rack⟩

section
variable (inetPton : Str → Option (BitVec 32))

def parseIpv4 (address : Str) : Option (BitVec 32) :=
  inetPton <| match PathStrings.rfind address ':' with
    | none => address
    | some colon => PathStrings.substr address 0 colon

/-- The loop over the bits from `bits` on. -/
def commonBitsFrom (x : BitVec 32) : Nat → Nat → Nat
  | 0, bits => bits
  | fuel + 1, bits =>
      if bits < 32 ∧ x &&& (0x80000000#32 >>> bits) = 0 then commonBitsFrom x fuel (bits + 1)
      else bits

def commonPrefixBits (a b : BitVec 32) : Nat := commonBitsFrom (a ^^^ b) 32 0

def distanceBetween (a b : Endpoint) : Nat :=
  if a.rack ≠ [] ∧ b.rack ≠ [] then (if a.rack = b.rack then 0 else 1)
  else match parseIpv4 inetPton a.address, parseIpv4 inetPton b.address with
    | some ia, some ib => 32 - commonPrefixBits ia ib
    | _, _ => 32

/-- `std::min_element`: the first of the least. -/
def minElement (distance : Replica → Nat) (first : Replica) (rest : List Replica) : Replica :=
  rest.foldl (fun best replica => if distance replica < distance best then replica else best) first

def chainFrom : Nat → Endpoint → List Replica → List Replica
  | 0, _, _ => []
  | _ + 1, _, [] => []
  | fuel + 1, current, first :: rest =>
      let best := minElement (fun replica => distanceBetween inetPton current replica.endpoint)
        first rest
      best :: chainFrom fuel best.endpoint ((first :: rest).erase best)

/-- Each round of the loop takes one replica. -/
def orderPushChain (origin : Endpoint) (replicas : List Replica) : List Replica :=
  chainFrom inetPton replicas.length origin replicas

/-- Every replica of the chain is a nearest one to its predecessor among those that are left. -/
def Nearest : Endpoint → List Replica → Prop
  | _, [] => True
  | current, replica :: rest =>
      (∀ other ∈ rest, distanceBetween inetPton current replica.endpoint ≤
        distanceBetween inetPton current other.endpoint) ∧ Nearest replica.endpoint rest

variable {inetPton} {distance : Replica → Nat} {first : Replica} {rest : List Replica}

theorem minElement_spec : minElement distance first rest ∈ first :: rest ∧
    ∀ replica ∈ first :: rest, distance (minElement distance first rest) ≤ distance replica := by
  induction rest generalizing first with
  | nil => simp [minElement]
  | cons second rest ih =>
      have next : minElement distance first (second :: rest) = minElement distance
          (if distance second < distance first then second else first) rest := rfl
      rw [next]
      split
      · rename_i nearer
        obtain ⟨member, least⟩ := @ih second
        refine ⟨List.mem_cons_of_mem _ member, fun replica there => ?_⟩
        rcases List.mem_cons.mp there with rfl | later
        · exact (least second List.mem_cons_self).trans nearer.le
        · exact least replica later
      · rename_i farther
        obtain ⟨member, least⟩ := @ih first
        constructor
        · rcases List.mem_cons.mp member with here | later
          · rw [here]
            exact List.mem_cons_self
          · exact List.mem_cons_of_mem _ (List.mem_cons_of_mem _ later)
        · intro replica there
          rcases List.mem_cons.mp there with rfl | later
          · exact least _ List.mem_cons_self
          · rcases List.mem_cons.mp later with rfl | later
            · exact (least first List.mem_cons_self).trans (Nat.le_of_not_lt farther)
            · exact least replica (List.mem_cons_of_mem _ later)

theorem chainFrom_spec {fuel : Nat} {current : Endpoint} {replicas : List Replica}
    (enough : replicas.length ≤ fuel) :
    (chainFrom inetPton fuel current replicas).Perm replicas ∧
      Nearest inetPton current (chainFrom inetPton fuel current replicas) := by
  induction fuel generalizing current replicas with
  | zero =>
      obtain rfl := List.eq_nil_of_length_eq_zero (Nat.le_zero.mp enough)
      exact ⟨List.Perm.nil, trivial⟩
  | succ fuel ih =>
      cases replicas with
      | nil => exact ⟨List.Perm.nil, trivial⟩
      | cons first rest =>
          obtain ⟨member, least⟩ := @minElement_spec
            (fun replica => distanceBetween inetPton current replica.endpoint) first rest
          unfold chainFrom
          dsimp only
          generalize minElement (fun replica =>
            distanceBetween inetPton current replica.endpoint) first rest = best at member least
          have length := List.length_erase_of_mem member
          obtain ⟨perm, nearest⟩ := @ih best.endpoint ((first :: rest).erase best) (by
            rw [length]
            simp only [List.length_cons] at enough ⊢
            omega)
          refine ⟨(perm.cons best).trans (List.perm_cons_erase member).symm, ?_, nearest⟩
          intro other there
          exact least other (List.mem_of_mem_erase (perm.mem_iff.mp there))

theorem orderPushChain_spec (origin : Endpoint) (replicas : List Replica) :
    (orderPushChain inetPton origin replicas).Perm replicas ∧
      Nearest inetPton origin (orderPushChain inetPton origin replicas) :=
  chainFrom_spec (le_refl _)

end

end Gfs.Push
