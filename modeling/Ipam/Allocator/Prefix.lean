import Ipam.Allocator.BoundedSearch

/-!
The transactions of the prefix allocator. `emptyDigest` is `scope.EmptyAddressSpaceDigest`, the hash of the
empty address space.
-/

namespace Ipam.Allocator

open Allocation Database Transaction

def asPool : Option Object → Option IPPool
  | some o => o.asPool
  | none => none

def lockAndDecodeIPPool (poolKey : Key) : Tx IPPool := do
  let o : Option Object ← send (.lockObject poolKey)
  Prog.ofOption .poolNotFound (asPool o)

def IPPool.range (pool : IPPool) : Option IPNet :=
  match pool.allocatedCIDR with
  | some cidr => some cidr.net
  | none => pool.cidr

def parsePoolCIDR (pool : IPPool) : Tx (List IPNet) := do
  let ipnet ← Prog.ofOption .poolCidrUnparsed (IPPool.range pool)
  pure [ipnet]

def familyOf (n : IPNet) : Family :=
  n.ip.shortest.1

def effectivePoolFamily (pool : IPPool) : Option Family :=
  pool.ipFamily.or ((IPPool.range pool).map familyOf)

def totalAddresses (parents : List IPNet) : ℕ :=
  (parents.map addressCount).sum

def setPoolCapacityStatus (pool : IPPool) (parents : List IPNet) (consumed : ℕ) : IPPool :=
  { pool with
    capacity := some ⟨totalAddresses parents, consumed, totalAddresses parents - consumed⟩
    statusFamily := effectivePoolFamily pool }

def persistPoolCapacity (poolKey : Key) (pool : IPPool) (parents : List IPNet) (consumed : ℕ) : Tx Unit :=
  send (.updateObject poolKey (.pool (setPoolCapacityStatus pool parents consumed)))

def loadOverlapping (poolKey : Key) (block : IPNet) : Tx (List Cidr) := do
  let text ← Prog.ofOption .invalidCidr block.string
  send (.loadOverlapping poolKey text)

def readConsumed (poolKey : Key) : Tx (Option ℕ) :=
  send (.readConsumed poolKey)

def writeConsumed (poolKey : Key) (consumed : ℕ) : Tx Unit :=
  send (.writeConsumed poolKey consumed)

def seedConsumption (poolKey : Key) (parents : List IPNet) : Tx ℕ := do
  let existing : List Cidr ← send (.loadAllocations poolKey spaceAll)
  let m ← Prog.ofExcept .allocation (measure parents (existing.map Cidr.net) ⟨0, 0, 0⟩)
  pure m.consumed

def consumedOrSeed (poolKey : Key) (parents : List IPNet) : Tx ℕ := do
  let recorded ← readConsumed poolKey
  match recorded with
  | some base => pure base
  | none => seedConsumption poolKey parents

def consumptionAfterAllocate (poolKey : Key) (parents : List IPNet) (block : IPNet) : Tx ℕ := do
  let overlapping ← loadOverlapping poolKey block
  let base ← consumedOrSeed poolKey parents
  let delta ← Prog.ofExcept .allocation (addedConsumption parents (overlapping.map Cidr.net) block)
  pure (base + delta)

def consumptionAfterRelease (poolKey : Key) (parents : List IPNet) (block : IPNet) : Tx ℕ := do
  let overlapping ← loadOverlapping poolKey block
  let recorded ← readConsumed poolKey
  match recorded with
  | none => seedConsumption poolKey parents
  | some base => do
    let delta ← Prog.ofExcept .allocation (removedConsumption parents (overlapping.map Cidr.net) block)
    pure (base - delta)

def reservationFrom : Option Reservation → Reservation
  | none => ⟨0, 0, 0⟩
  | some spec => spec

section

variable (emptyDigest : String)

def insertReservation (poolKey : Key) (block : IPNet) : Tx Bool := do
  let text ← Prog.ofOption .invalidCidr block.string
  send (.insertReservation ⟨poolKey, .reservation poolKey text, none, text, emptyDigest, .reservation, .delete⟩)

def reserveBlocks (poolKey : Key) (parents : List IPNet) : List IPNet → Option ℕ → Tx (Option ℕ)
  | [], consumed => pure consumed
  | block :: rest, consumed => do
    let next ← consumptionAfterAllocate poolKey parents block
    let inserted ← insertReservation emptyDigest poolKey block
    if inserted then do
      writeConsumed poolKey next
      reserveBlocks poolKey parents rest (some next)
    else reserveBlocks poolKey parents rest consumed

def materialiseReservations (poolKey : Key) (pool : IPPool) (parents : List IPNet) : Tx Unit :=
  if (reservationFrom pool.reservations).isZero then pure ()
  else do
    let held : Bool ← send (.holdsReservations poolKey)
    if held then pure ()
    else do
      let blocks ← Prog.ofExcept .allocation ((reservationFrom pool.reservations).blocksIn parents)
      let consumed ← reserveBlocks emptyDigest poolKey parents blocks none
      match consumed with
      | none => pure ()
      | some consumed => persistPoolCapacity poolKey pool parents consumed

structure PrefixRequest where
  poolKey : Key
  prefixLen : ℤ
  scopeDigest : String
  claimKey : Key
  allocationKey : Option Key
  reclaimPolicy : Option ReclaimPolicy
  deriving DecidableEq, Repr

def searchDigest (digest : String) : String :=
  if digest = "" then emptyDigest else digest

def PrefixRequest.row (req : PrefixRequest) (cidr : Cidr) : Row :=
  ⟨req.poolKey, req.allocationKey.getD req.claimKey, some req.claimKey, cidr, searchDigest emptyDigest req.scopeDigest,
    .claim, req.reclaimPolicy.getD .delete⟩

def recordBlock (pool : IPPool) (parents : List IPNet) (block : IPNet) (row : Cidr → Row) (poolKey : Key) :
    Tx Cidr := do
  let consumed ← consumptionAfterAllocate poolKey parents block
  let text ← Prog.ofOption .invalidCidr block.string
  send (.insertAllocation (row text))
  writeConsumed poolKey consumed
  persistPoolCapacity poolKey pool parents consumed
  pure text

def allocatePrefix (req : PrefixRequest) : Tx Cidr := do
  let pool ← lockAndDecodeIPPool req.poolKey
  let parents ← parsePoolCIDR pool
  materialiseReservations emptyDigest req.poolKey pool parents
  let block ← findBlock req.poolKey (searchDigest emptyDigest req.scopeDigest) parents req.prefixLen pool.strategy
  recordBlock pool parents block (req.row emptyDigest) req.poolKey

structure PoolCarve where
  allocationKey : Key
  scopeDigest : String
  deriving DecidableEq, Repr

def PoolCarve.row (carve : PoolCarve) (poolKey : Key) (cidr : Cidr) : Row :=
  ⟨poolKey, carve.allocationKey, some carve.allocationKey, cidr, carve.scopeDigest, .poolCarve, .delete⟩

def carveFromPool (sourcePoolKey : Key) (prefixLen : ℤ) (carve : PoolCarve) : Tx IPNet := do
  let pool ← lockAndDecodeIPPool sourcePoolKey
  let parents ← parsePoolCIDR pool
  materialiseReservations emptyDigest sourcePoolKey pool parents
  let block ← findBlock sourcePoolKey spaceAll parents prefixLen pool.strategy
  let _ ← recordBlock pool parents block (carve.row sourcePoolKey) sourcePoolKey
  pure block

def reservePool (poolKey : Key) : Tx Unit := do
  let pool ← lockAndDecodeIPPool poolKey
  let parents ← parsePoolCIDR pool
  materialiseReservations emptyDigest poolKey pool parents

end

def sendAll {α : Type} (f : α → Tx Unit) : List α → Tx Unit
  | [] => pure ()
  | a :: rest => do
    f a
    sendAll f rest

/-- The trigger `ipam_lower_search_floor`, for one deleted row. -/
def lowerSearchFloor (old : Row) : Tx Unit := do
  let digests : List String ← send (.floorsToLower old)
  sendAll (fun digest => send (.lowerFloor old.poolKey digest old.cidr.ip)) digests

def publishRelease (old : Row) : Tx Unit := do
  let o : Option Object ← send (.lockObject old.poolKey)
  match asPool o with
  | none => pure ()
  | some pool => do
    let parents ← parsePoolCIDR pool
    let consumed ← consumptionAfterRelease old.poolKey parents old.cidr.net
    writeConsumed old.poolKey consumed
    persistPoolCapacity old.poolKey pool parents consumed

def deleteAllocations (cond : DeleteCond) : Tx Unit := do
  let released : List Row ← send (.deleteAllocations cond)
  sendAll lowerSearchFloor released
  sendAll publishRelease released

def release (claimKey : Key) : Tx (List Key) := do
  let retained : List Key ← send (.retainAllocations claimKey)
  deleteAllocations (.claimKey claimKey)
  pure retained

def releaseAllocation (allocationKey : Key) : Tx Unit :=
  deleteAllocations (.allocationKey allocationKey)

def releasePoolReservations (poolKey : Key) : Tx Unit :=
  deleteAllocations (.reservationsOf poolKey)

def bindScopeRange (poolKey claimKey : Key) : Tx Cidr := do
  let bound : Option Cidr ← send (.bindScopeRange poolKey claimKey)
  match bound with
  | some cidr => pure cidr
  | none => do
    let carve : Option Row ← send (.carveOf poolKey)
    match carve with
    | none => .throw .scopeRangeCarveMissing
    | some _ => .throw .scopeRangeHeld

end Ipam.Allocator
