import Ipam.Registry.Classes
import Ipam.Tenant.RootPools

namespace Ipam.Registry

open Allocation Allocator Cascade Database Transaction

def effectiveIPFamily (pool : IPPool) : Option Family :=
  pool.ipFamily.or (pool.allocatedCIDR.map fun c => familyOf c.net)

def setPoolStatusCapacity (pool : IPPool) (parents : List IPNet) : IPPool :=
  match measure parents [] ⟨0, 0, 0⟩ with
  | .error _ => pool
  | .ok m =>
    { pool with
      capacity := some ⟨m.total, m.consumed, m.free⟩
      statusFamily := (effectiveIPFamily pool).or pool.statusFamily }

def preparePoolForCreate (p : IPPool) : IPPool :=
  let pending : IPPool :=
    { p with
      strategy := if p.strategy = .unset then .firstFit else p.strategy
      allocatedCIDR := none
      statusFamily := none
      scopeDigest := ""
      capacity := none }
  match p.parentPoolRef, p.cidr with
  | none, some cidr => setPoolStatusCapacity { pending with allocatedCIDR := cidr.string } [cidr]
  | _, _ => pending

def validateIPPool (p : IPPool) : Bool :=
  (match p.parentPoolRef with
    | some parent =>
      p.cidr.isNone && p.ipFamily.isNone && parent ≠ "" && 1 ≤ p.prefixLength && p.prefixLength ≤ 128
    | none => p.prefixLength = 0 && p.cidr.isSome && p.ipFamily.isSome) &&
    !(0 < p.minPrefixLength && 0 < p.maxPrefixLength && p.maxPrefixLength < p.minPrefixLength) &&
    reservationsValid (effectiveIPFamily p) p.reservations

def ipPoolStrategy : Strategy IPPool where
  encode := .pool
  decode := Object.asPool
  prepareForCreate := preparePoolForCreate
  validate _ := validateIPPool
  prepareForUpdate new old :=
    { new with
      allocatedCIDR := old.allocatedCIDR
      statusFamily := old.statusFamily
      scopeDigest := old.scopeDigest
      capacity := old.capacity }
  validateUpdate _ new old :=
    validateIPPool new && new.cidr = old.cidr && new.ipFamily = old.ipFamily &&
      new.parentPoolRef = old.parentPoolRef && new.prefixLength = old.prefixLength

def validateClassOffers (project : String) (pool : IPPool) : Tx Unit :=
  if pool.classNames.length < 2 then pure ()
  else do
    let spaces ← offeredSpaces project pool.classNames
    if firstDisagreement spaces then .throw .invalid else pure ()

def tenantRootPoolCIDRs (project excludeName : String) (s : Db) : List (String × IPNet) :=
  Tenant.tenantRootPoolCIDRs project.toList excludeName (s.objects.filterMap Tenant.namedRow)

def validateNoRootOverlap (project name : String) (pool : IPPool) : Tx Unit :=
  match pool.parentPoolRef, pool.cidr with
  | none, some candidate => do
    let s : Db ← send .select
    if (tenantRootPoolCIDRs project name s).any fun other => cidrsOverlap candidate other.2 then .throw .conflict
    else pure ()
  | _, _ => pure ()

structure PoolRequest where
  project : String
  name : String
  pool : IPPool
  admitted : Bool
  dryRun : List String
  deriving DecidableEq, Repr

def PoolRequest.key (req : PoolRequest) : Key :=
  poolStorageKey req.project req.name

def createRootPool (req : PoolRequest) : Tx IPPool :=
  ipPoolStrategy.create req.project req.key req.pool req.admitted

section

variable (emptyDigest : String)

def createChildPool (req : PoolRequest) (parent : String) : Tx IPPool :=
  let pool := preparePoolForCreate req.pool
  if ¬ validateIPPool pool then .throw .invalid
  else if ¬ req.admitted then .throw .forbidden
  else do
    let parentPool ← ipPoolStrategy.get (poolStorageKey req.project parent)
    let _ ← Prog.ofOption .invalid (effectiveIPFamily parentPool)
    let cidr ← allocatePrefix emptyDigest
      ⟨poolStorageKey req.project parent, pool.prefixLength, "", req.key, some req.key, none⟩
    let ready := setPoolStatusCapacity { pool with allocatedCIDR := some cidr } [cidr.net]
    send (.insertObject req.key (.pool ready))
    pure ready

def createPool (req : PoolRequest) : Handler IPPool := do
  Request.rollback (validateClassOffers req.project req.pool)
  match req.pool.parentPoolRef with
  | none => do
    Request.rollback (validateNoRootOverlap req.project req.name req.pool)
    persist req.dryRun (createRootPool req)
  | some parent => Request.transact (createChildPool emptyDigest req parent)

end

def updatePoolTx (req : PoolRequest) (forceAllowCreate : Bool) : Tx IPPool :=
  ipPoolStrategy.update req.project req.key req.pool forceAllowCreate req.admitted (validateClassOffers req.project)

def updatePool (req : PoolRequest) (forceAllowCreate : Bool) : Handler IPPool :=
  persist req.dryRun (updatePoolTx req forceAllowCreate)

def checkPoolEmpty (key : Key) (admitted : Bool) : Tx IPPool := do
  let pool ← ipPoolStrategy.get key
  let occupants : List Row ← send (.occupants key)
  if ¬ admitted then .throw .forbidden
  else if occupants ≠ [] then .throw .conflict
  else pure pool

def deleteChildPool (key : Key) : Tx Unit := do
  releasePoolReservations key
  let _ ← release key
  send (.deleteObject key)

def deletePool (project name : String) (admitted : Bool) (dryRun : List String) : Handler Unit := do
  let pool ← Request.rollback (checkPoolEmpty (poolStorageKey project name) admitted)
  match pool.parentPoolRef with
  | none => do
    Request.transact (releasePoolReservations (poolStorageKey project name))
    persist dryRun (ipPoolStrategy.delete (poolStorageKey project name) admitted)
  | some _ => Request.transact (deleteChildPool (poolStorageKey project name))

/-- An object that is gone by the time its turn comes is passed over. -/
def skipMissing (r : Handler Unit) : Handler Unit := fun s =>
  match r s with
  | (.error .objectNotFound, es) => (.ok (), es)
  | answer => answer

def deletePoolCollection (project : String) (admitted : Bool) (dryRun : List String) : List String → Handler Unit
  | [] => pure ()
  | name :: rest => do
    skipMissing (persist dryRun (ipPoolStrategy.delete (poolStorageKey project name) admitted))
    deletePoolCollection project admitted dryRun rest

end Ipam.Registry
