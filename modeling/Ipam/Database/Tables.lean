import Ipam.Allocation.Reservation

namespace Ipam.Database

open Allocation

inductive Resource where
  | ippools
  | ipclasses
  | ipclaims
  | ipallocations
  deriving DecidableEq, Repr

/-- A storage key. The text keys of the source are injective in these parts. -/
inductive Key where
  | object (project : String) (resource : Resource) (namespace_ : String) (name : String)
  | reservation (pool : Key) (block : Cidr)
  deriving DecidableEq, Repr

structure ScopeRef where
  apiGroup : String
  kind : String
  name : String
  deriving DecidableEq, Repr

abbrev Scope := List (String × ScopeRef)

structure PoolCapacity where
  total : ℕ
  allocated : ℕ
  available : ℕ
  deriving DecidableEq, Repr

structure IPPool where
  cidr : Option IPNet
  ipFamily : Option Family
  parentPoolRef : Option String
  prefixLength : ℤ
  classNames : List String
  classRef : Option String
  scope : Scope
  reservations : Option Reservation
  strategy : Strategy
  minPrefixLength : ℤ
  maxPrefixLength : ℤ
  allocatedCIDR : Option Cidr
  statusFamily : Option Family
  scopeDigest : String
  capacity : Option PoolCapacity
  deriving DecidableEq, Repr

inductive ReclaimPolicy where
  | delete
  | retain
  deriving DecidableEq, Repr

inductive PoolSelection where
  | firstFit
  | leastUtilized
  deriving DecidableEq, Repr

inductive AddressScope where
  | public_
  | private_
  deriving DecidableEq, Repr

/-- A class; `source` is the project and the name of the class that a reference stands for. -/
structure IPClass where
  isDefault : Bool
  source : Option (String × String)
  ipFamily : Option Family
  addressScope : Option AddressScope
  parentClassName : Option String
  poolPer : List String
  uniqueWithin : List String
  allowedPrefixLengths : Option (ℤ × ℤ)
  defaultPrefixLength : ℤ
  reservations : Option Reservation
  strategy : Option PoolSelection
  reclaimPolicy : Option ReclaimPolicy
  deriving DecidableEq, Repr

inductive ClaimTarget where
  | block
  | scopeRange
  deriving DecidableEq, Repr

inductive ClaimPhase where
  | pending
  | bound
  | releasing
  deriving DecidableEq, Repr

/-- A claim; `address` is the address or block that its spec names. -/
structure IPClaim where
  className : String
  ipFamily : Option Family
  addressScope : Option AddressScope
  address : Option Cidr
  prefixLength : Option ℤ
  scope : Scope
  target : ClaimTarget
  reclaimPolicy : Option ReclaimPolicy
  phase : ClaimPhase
  allocatedCIDR : Option Cidr
  poolRef : Option String
  boundAllocationRef : Option String
  deriving DecidableEq, Repr

inductive Purpose where
  | claim
  | reservation
  | poolCarve
  deriving DecidableEq, Repr

structure IPAllocation where
  ipFamily : Option Family
  poolRef : String
  className : String
  purpose : Purpose
  claimRef : Option String
  scope : Scope
  reclaimPolicy : ReclaimPolicy
  ownerRef : String
  allocatedCIDR : Cidr
  scopeDigest : String
  deriving DecidableEq, Repr

inductive Object where
  | pool (p : IPPool)
  | class_ (c : IPClass)
  | claim (c : IPClaim)
  | allocation (a : IPAllocation)
  deriving DecidableEq, Repr

structure Row where
  poolKey : Key
  allocationKey : Key
  claimKey : Option Key
  cidr : Cidr
  scopeDigest : String
  purpose : Purpose
  reclaimPolicy : ReclaimPolicy
  deriving DecidableEq, Repr

structure Floor where
  poolKey : Key
  scopeDigest : String
  floor : IP
  deriving DecidableEq, Repr

structure Identity where
  className : String
  scopeDigest : String
  poolKey : Key
  deriving DecidableEq, Repr

structure Db where
  objects : List (Key × Object)
  rows : List Row
  floors : List Floor
  consumption : List (Key × ℕ)
  identities : List Identity
  deriving DecidableEq, Repr

namespace Db

def empty : Db := ⟨[], [], [], [], []⟩

def object (s : Db) (k : Key) : Option Object :=
  s.objects.lookup k

def pool (s : Db) (k : Key) : Option IPPool :=
  match s.object k with
  | some (.pool p) => some p
  | _ => none

def class_ (s : Db) (k : Key) : Option IPClass :=
  match s.object k with
  | some (.class_ c) => some c
  | _ => none

def consumed (s : Db) (k : Key) : Option ℕ :=
  s.consumption.lookup k

end Db

def put {α β : Type} [DecidableEq α] (k : α) (v : β) (t : List (α × β)) : List (α × β) :=
  (k, v) :: t.filter fun e => e.1 ≠ k

theorem lookup_filter {α β : Type} [DecidableEq α] {p : α → Bool} {k : α} (h : p k = true) (t : List (α × β)) :
    (t.filter fun e => p e.1).lookup k = t.lookup k := by
  induction t with
  | nil => rfl
  | cons e t ih =>
    obtain ⟨a, b⟩ := e
    by_cases ha : k = a
    · subst ha
      simp [h]
    · by_cases hp : p a = true
      · simp [hp, List.lookup_cons, beq_false_of_ne ha, ih]
      · simp [hp, List.lookup_cons, beq_false_of_ne ha, ih]

theorem lookup_filter_self {α β : Type} [DecidableEq α] {p : α → Bool} {k : α} (h : p k = false)
    (t : List (α × β)) : (t.filter fun e => p e.1).lookup k = none := by
  induction t with
  | nil => rfl
  | cons e t ih =>
    obtain ⟨a, b⟩ := e
    by_cases hp : p a = true
    · have ha : k ≠ a := by
        rintro rfl
        rw [h] at hp
        cases hp
      simp [hp, List.lookup_cons, beq_false_of_ne ha, ih]
    · simp [hp, ih]

theorem lookup_put {α β : Type} [DecidableEq α] (k k' : α) (v : β) (t : List (α × β)) :
    (put k v t).lookup k' = if k' = k then some v else t.lookup k' := by
  by_cases h : k' = k
  · subst h
    simp [put]
  · have hfilter := lookup_filter (p := fun a => decide (a ≠ k)) (k := k') (by simpa using h) t
    simp only [put, List.lookup_cons, beq_false_of_ne h, if_neg h]
    exact hfilter

end Ipam.Database
