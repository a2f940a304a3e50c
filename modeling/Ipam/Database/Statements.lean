import Ipam.Lib.Transaction
import Ipam.Database.Tables

/-!
The SQL statements of the allocator. Each reads the tables its transaction sees and answers with the changes
it makes. Statements on one pool read that pool's rows without their `claim_key`, a column that none of them
looks at.
-/

namespace Ipam.Database

open Allocation Transaction

structure PoolState where
  pool : Option IPPool
  rows : List Row
  floors : List (String × IP)
  consumed : Option ℕ
  deriving DecidableEq, Repr

def Row.unclaimed (r : Row) : Row :=
  { r with claimKey := none }

namespace Db

def poolRows (s : Db) (k : Key) : List Row :=
  (s.rows.filter fun r => r.poolKey = k).map Row.unclaimed

def poolFloors (s : Db) (k : Key) : List (String × IP) :=
  (s.floors.filter fun f => f.poolKey = k).map fun f => (f.scopeDigest, f.floor)

def poolState (k : Key) (s : Db) : PoolState :=
  ⟨s.pool k, s.poolRows k, s.poolFloors k, s.consumed k⟩

end Db

inductive Err where
  | allocation (e : Allocation.Error)
  | poolNotFound
  | objectNotFound
  | objectExists
  | invalidCidr
  | poolCidrUnparsed
  | claimKeyTaken
  | allocationKeyTaken
  | rangesOverlap
  | poolMissing
  | poolInUse
  | searchDidNotAdvance
  | scopeRangeHeld
  | scopeRangeCarveMissing
  | scopeRangeOccupied
  | rangeTreeTooDeep
  | noTenant
  | classNotFound
  | noDefaultClass
  | chainedReference
  | chainTooDeep
  | familyMismatch
  | addressScopeMismatch
  | missingRoles (roles : List String) (required : String)
  | noPrefixLength
  | prefixLengthRejected
  | noOfferingPool
  | classHoldsNoRange
  | identityLost
  | invalid
  | forbidden
  | conflict
  deriving DecidableEq, Repr

inductive Effect where
  | putObject (k : Key) (o : Object)
  | removeObject (k : Key)
  | insertRow (r : Row)
  | deleteRow (pool k : Key)
  | setClaimKey (k : Key) (claim : Option Key)
  | insertFloor (pool : Key) (digest : String) (floor : IP)
  | setFloor (pool : Key) (digest : String) (floor : IP)
  | putConsumed (pool : Key) (n : ℕ)
  | insertIdentity (i : Identity)
  deriving DecidableEq, Repr

def Effect.apply : Effect → Db → Db
  | .putObject k o, s => { s with objects := put k o s.objects }
  -- floors, totals and identities reference the object ON DELETE CASCADE
  | .removeObject k, s =>
    { s with
      objects := s.objects.filter fun e => e.1 ≠ k
      floors := s.floors.filter fun f => f.poolKey ≠ k
      consumption := s.consumption.filter fun e => e.1 ≠ k
      identities := s.identities.filter fun i => i.poolKey ≠ k }
  | .insertRow r, s => { s with rows := s.rows ++ [r] }
  | .deleteRow pool k, s => { s with rows := s.rows.filter fun r => ¬ (r.poolKey = pool ∧ r.allocationKey = k) }
  | .setClaimKey k claim, s =>
    { s with rows := s.rows.map fun r => if r.allocationKey = k then { r with claimKey := claim } else r }
  | .insertFloor pool digest floor, s => { s with floors := s.floors ++ [⟨pool, digest, floor⟩] }
  | .setFloor pool digest floor, s =>
    { s with
      floors := s.floors.map fun f =>
        if f.poolKey = pool ∧ f.scopeDigest = digest then { f with floor := floor } else f }
  | .putConsumed pool n, s => { s with consumption := put pool n s.consumption }
  | .insertIdentity i, s => { s with identities := s.identities ++ [i] }

/-- `searchFilter`: the rows that block an address space; the empty digest asks for all of them. -/
def Row.blocks (digest : String) (r : Row) : Bool :=
  digest = "" || r.purpose ≠ .claim || r.scopeDigest = digest

def blocksIn (digest : String) (rows : List Row) : List Cidr :=
  (rows.filter (Row.blocks digest)).map Row.cidr

def Family.rank : Family → ℕ
  | .v4 => 0
  | .v6 => 1

/-- PostgreSQL's order on `inet` values: network bits, then mask length, then the whole address. -/
def networkCmp (f : Family) (a l : ℕ) (g : Family) (b m : ℕ) : Ordering :=
  if f = g then
    (compare (a / blockSize (min l m) f.bits) (b / blockSize (min l m) f.bits)).then
      ((compare l m).then (compare a b))
  else compare (Family.rank f) (Family.rank g)

def sortCidrs (cs : List Cidr) : List Cidr :=
  cs.insertionSort fun c d => networkCmp c.family c.addr c.len d.family d.addr d.len ≠ .gt

def coveringBlocks (cs : List Cidr) (start : IP) (parent : Cidr) : List Cidr :=
  sortCidrs (cs.filter fun c => decide (c.Mem start.family start.addr) && c.within parent)

def blocksFrom (cs : List Cidr) (start : IP) (parent : Cidr) (limit : ℕ) : List Cidr :=
  (sortCidrs (cs.filter fun c =>
    networkCmp c.family c.addr c.len start.family start.addr start.family.bits ≠ .lt && c.within parent)).take limit

def least (a b : IP) : IP :=
  if networkCmp a.family a.addr a.family.bits b.family b.addr b.family.bits = .gt then b else a

inductive DeleteCond where
  | claimKey (k : Key)
  | allocationKey (k : Key)
  | reservationsOf (pool : Key)
  deriving DecidableEq, Repr

/-- The rows a condition selects. The columns `claim_key` and `allocation_key` are UNIQUE, so a condition on one
of them selects at most one row. -/
def DeleteCond.select : DeleteCond → List Row → List Row
  | .claimKey k, rows => (rows.find? fun r => r.claimKey = some k).toList
  | .allocationKey k, rows => (rows.find? fun r => r.allocationKey = k).toList
  | .reservationsOf pool, rows => rows.filter fun r => r.poolKey = pool && r.purpose = .reservation

inductive Stmt where
  | getObject (k : Key)
  | lockObject (k : Key)
  | insertObject (k : Key) (o : Object)
  | updateObject (k : Key) (o : Object)
  | deleteObject (k : Key)
  | holdsReservations (pool : Key)
  | loadAllocations (pool : Key) (digest : String)
  | loadBlocksCovering (pool : Key) (digest : String) (start : IP) (parent : Cidr)
  | loadBlocksFrom (pool : Key) (digest : String) (start : IP) (parent : Cidr) (limit : ℕ)
  | loadOverlapping (pool : Key) (block : Cidr)
  | insertReservation (r : Row)
  | insertAllocation (r : Row)
  | retainAllocations (claim : Key)
  | deleteAllocations (cond : DeleteCond)
  | floorsToLower (old : Row)
  | lowerFloor (pool : Key) (digest : String) (addr : IP)
  | seedFloor (pool : Key) (digest : String) (base : IP)
  | lockFloor (pool : Key) (digest : String)
  | raiseFloor (pool : Key) (digest : String) (next observed : IP)
  | readConsumed (pool : Key)
  | writeConsumed (pool : Key) (n : ℕ)
  | bindScopeRange (pool claim : Key)
  | carveOf (pool : Key)
  | findScopeRange (claim : Key)
  | occupants (pool : Key)
  | lookupPoolIdentity (className digest : String)
  | claimPoolIdentity (i : Identity)
  | select

def Res : Stmt → Type
  | .getObject _ => Option Object
  | .lockObject _ => Option Object
  | .insertObject _ _ => Unit
  | .updateObject _ _ => Unit
  | .deleteObject _ => Unit
  | .holdsReservations _ => Bool
  | .loadAllocations _ _ => List Cidr
  | .loadBlocksCovering _ _ _ _ => List Cidr
  | .loadBlocksFrom _ _ _ _ _ => List Cidr
  | .loadOverlapping _ _ => List Cidr
  | .insertReservation _ => Bool
  | .insertAllocation _ => Unit
  | .retainAllocations _ => List Key
  | .deleteAllocations _ => List Row
  | .floorsToLower _ => List String
  | .lowerFloor _ _ _ => Unit
  | .seedFloor _ _ _ => Unit
  | .lockFloor _ _ => Option IP
  | .raiseFloor _ _ _ _ => Unit
  | .readConsumed _ => Option ℕ
  | .writeConsumed _ _ => Unit
  | .bindScopeRange _ _ => Option Cidr
  | .carveOf _ => Option Row
  | .findScopeRange _ => Option Key
  | .occupants _ => List Row
  | .lookupPoolIdentity _ _ => Option Key
  | .claimPoolIdentity _ => Bool
  | .select => Db

abbrev Tx := Prog Stmt Res Err

def insertRow (s : Db) (r : Row) : Except Err (List Effect) :=
  if r.claimKey.isSome ∧ s.rows.any fun o => o.claimKey = r.claimKey then .error .claimKeyTaken
  else if s.rows.any fun o => o.allocationKey = r.allocationKey then .error .allocationKeyTaken
  else if (s.poolRows r.poolKey).any fun o => o.scopeDigest = r.scopeDigest && o.cidr.overlaps r.cidr then
    .error .rangesOverlap
  else if (s.object r.poolKey).isNone then .error .poolMissing
  else .ok [.insertRow r]

def floorAt (floors : List (String × IP)) (digest : String) : Option IP :=
  floors.lookup digest

end Ipam.Database
